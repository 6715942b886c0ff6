import X86Encoding.Error
import X86Encoding.OperandKind

set_option autoImplicit false

namespace X86Encoding

/-- Where an operand is encoded: the fields of the ModRM byte, an SIB index, an immediate,
`vvvv`, or the high half of an immediate byte. -/
inductive OperandField where
  | modReg | baseReg | indexReg | immediate | secondImmediate | nonDestructiveReg | is4
  deriving DecidableEq, Repr

namespace OperandField

def all : List OperandField :=
  [.modReg, .baseReg, .indexReg, .immediate, .secondImmediate, .nonDestructiveReg, .is4]

def name : OperandField → Text
  | .modReg => "ModReg".toList
  | .baseReg => "BaseReg".toList
  | .indexReg => "IndexReg".toList
  | .immediate => "Immediate".toList
  | .secondImmediate => "SecondImmediate".toList
  | .nonDestructiveReg => "NonDestructiveReg".toList
  | .is4 => "Is4".toList

def letter : OperandField → Char
  | .modReg => 'r'
  | .baseReg => 'm'
  | .indexReg => 'x'
  | .immediate => 'i'
  | .secondImmediate => 'j'
  | .nonDestructiveReg => 'v'
  | .is4 => 's'

/-- The letter `-` stands for an operand that is not encoded. -/
def ofLetter (c : Char) : Except EncodingError (Option OperandField) :=
  if c = '-' then .ok none
  else
    match all.find? (·.letter == c) with
    | some f => .ok (some f)
    | none => .error (.format .unknownOperandField [c])

end OperandField

structure Operand where
  field : Option OperandField
  typeName : Text
  kind : OperandKind
  /-- May be left out. -/
  relaxed : Bool
  /-- A colon and not a comma follows. -/
  colon : Bool
  flags : List Text
  deriving DecidableEq, Repr

namespace Operand

def text (o : Operand) : Text :=
  o.typeName ++ o.flags.flatMap ('|' :: ·) ++ if o.relaxed then ['*'] else []

/-- A type name, flags behind bars, and a star if the operand may be left out. -/
def ofText (t : Text) (field : Option OperandField) (colon : Bool) :
    Except EncodingError Operand :=
  let stem := (['*'].isSuffixOf? t).getD t
  match (Text.lower stem).splitOn '|' with
  | [] => .error (.format .emptyOperandType stem)
  | typeName :: flags =>
    if typeName = [] then .error (.format .emptyOperandType stem)
    else
      .ok {
        field := field
        typeName := typeName
        kind := .ofTypeName typeName
        relaxed := ['*'].isSuffixOf t
        colon := colon
        flags := flags }

def isSeparator (c : Char) : Bool := c == ',' || c == ':'

/-- The type of a register, where it is also the operand of `rm`. -/
def asRM : Text → Text
  | 'r' :: 'e' :: 'g' :: rest => 'r' :: 'm' :: asRM rest
  | c :: rest => c :: asRM rest
  | [] => []

def readAll : List (Text × Char) → List Char → Except EncodingError (List Operand)
  | [], _ => .ok []
  | (t, letter) :: rest, separators =>
    match OperandField.ofLetter letter with
    | .error e => .error e
    | .ok field =>
      match ofText t field (separators.head? == some ':') with
      | .error e => .error e
      | .ok o =>
        match readAll rest separators.tail with
        | .error e => .error e
        | .ok os => .ok (o :: os)

/-- The letters `r+mi` are for two operands, the first of which is both `r` and `m`. -/
def sharedFields : Text := "r+mi".toList

def readColumn (column letters : Text) : Except EncodingError (List Operand) :=
  let texts := column.splitOnP isSeparator
  let separators := column.filter isSeparator
  if column = "void".toList || column = "ignore".toList || letters = [] then .ok []
  else if letters = sharedFields then
    match texts with
    | [r, i] => readAll [(r, 'r'), (asRM r, 'm'), (i, 'i')] (',' :: separators)
    | _ => .error (.format .operandCount column)
  else if texts.length = letters.length then readAll (texts.zip letters) separators
  else .error (.format .operandWithoutField column)

end Operand
end X86Encoding
