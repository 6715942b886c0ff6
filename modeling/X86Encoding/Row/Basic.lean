import X86Encoding.Code.Assembly
import X86Encoding.Row.Columns
import X86Encoding.Row.Operand
import X86Encoding.Row.Tuple

set_option autoImplicit false

namespace X86Encoding

/-- A row has no code string if its code column says so. -/
structure Row where
  mnemonic : Text
  operands : List Operand
  code : Option Code
  tuple : Option TupleType
  flags : List Text
  deriving DecidableEq, Repr

namespace Row

def ignoreWord : Text := "ignore".toList

def readCode (column : Text) : Except EncodingError (Text × Option Code × Option TupleType) :=
  if column = ignoreWord then .ok ([], none, none)
  else
    match Columns.CodeColumn.ofText column with
    | .error e => .error e
    | .ok parts =>
      match parts.tuple.mapM TupleType.ofText with
      | .error e => .error e
      | .ok tuple =>
        match Code.ofText parts.code with
        | .error e => .error e
        | .ok code => .ok (parts.letters, some code, tuple)

def readFlags (column : Text) : List Text :=
  if column = ignoreWord then [] else column.splitOn ','

/-- Of several faults, one of the mnemonic comes first and one of the operands last. -/
def ofColumns (mnemonic operands code flags : Text) : Except EncodingError Row :=
  if Columns.isMnemonic mnemonic then
    match readCode code with
    | .error e => .error e
    | .ok (letters, code, tuple) =>
      match Operand.readColumn operands letters with
      | .error e => .error e
      | .ok operands => .ok ⟨mnemonic, operands, code, tuple, readFlags flags⟩
  else .error (.format .mnemonic mnemonic)

def ofLine (line : Text) : Except EncodingError Row :=
  match Columns.split line with
  | .error e => .error e
  | .ok [mnemonic, operands, code, flags] => ofColumns mnemonic operands code flags
  | .ok columns => .error (.format (.columnCount columns.length) line)

def hasFlag (r : Row) (flag : Text) : Bool := r.flags.any (Text.sameLetters flag)

def directives : List Text :=
  ["DB".toList, "DW".toList, "DD".toList, "DQ".toList, "DT".toList, "DO".toList, "DY".toList,
    "DZ".toList, "RESB".toList, "RESW".toList, "RESD".toList, "RESQ".toList, "REST".toList,
    "RESO".toList, "RESY".toList, "RESZ".toList]

def isPseudo (r : Row) : Bool := r.code.isNone || directives.contains r.mnemonic

/-- Long mode only, or never in long mode, which wins. -/
def longMode (r : Row) : Option Bool :=
  if r.hasFlag "NOLONG".toList then some false
  else if r.hasFlag "LONG".toList || r.hasFlag "X64".toList then some true
  else none

def rmKind (r : Row) : Option OperandKind :=
  (r.operands.find? fun o => o.field == some .baseReg).map (·.kind)

def isConditionToken : Token → Bool
  | .bytePlusCondition _ => true
  | _ => false

def context (r : Row) (condition : Option Condition) : Code.Context :=
  ⟨r.longMode, r.rmKind, condition⟩

/-- The mnemonic of a condition takes the place of a final `cc`. -/
def conditionMnemonic (r : Row) (c : Condition) : Text :=
  let base := Text.lower r.mnemonic
  ("cc".toList.isSuffixOf? base).getD base ++ c.ending

/-- The mnemonics in lower case with their descriptors, in the order of the condition codes. -/
def opcodes (r : Row) : Except EncodingError (List (Text × OpcodeDescriptor)) :=
  match r.code with
  | none => .error (.invalidOperation (.noEncoding r.mnemonic))
  | some code =>
    if code.tokens.any isConditionToken then
      Condition.all.mapM fun c =>
        match code.compile (r.context (some c)) with
        | .error e => .error e
        | .ok d => .ok (r.conditionMnemonic c, d)
    else
      match code.compile (r.context none) with
      | .error e => .error e
      | .ok d => .ok [(Text.lower r.mnemonic, d)]

/-- The rows of a text by their line numbers, counted from 1; ignored lines count too. -/
def readAll (t : Text) : List (Nat × Except EncodingError Row) :=
  ((Text.lines t).zipIdx 1).filterMap fun (line, number) =>
    if Columns.isIgnored line then none else some (number, ofLine line)

end Row
end X86Encoding
