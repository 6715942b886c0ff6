import X86Encoding.Pattern
import X86Encoding.CommandLine.Invocation
import X86Encoding.Json.Table
import X86Encoding.Opcode.Printing
import X86Encoding.Table.Sweep

set_option autoImplicit false

namespace X86Encoding.CommandLine

open JsonForm

abbrev Reader := Text → Except Text Text

def missingFile : Text := "No such file or directory (os error 2)".toList

structure Outcome where
  exit : Nat
  out : Text
  err : Text
  deriving DecidableEq, Repr

structure Failure where
  subject : Text
  cause : Option Text
  deriving DecidableEq, Repr

namespace Failure

def indented (t : Text) : Text :=
  t.flatMap fun c => if c == '\n' then "\n    ".toList else [c]

def text (f : Failure) : Text :=
  "Error: ".toList ++ f.subject ++
    match f.cause with
    | none => []
    | some cause => "\n\nCaused by:\n    ".toList ++ indented cause

end Failure

structure Report where
  out : List Text
  err : List Text
  failure : Option Failure
  deriving DecidableEq, Repr

namespace Report

def endLines (lines : List Text) : Text := lines.flatMap (· ++ ['\n'])

def done (out : List Text) (err : List Text) : Report := ⟨out, err, none⟩

def failed (err : List Text) (subject : Text) (cause : Option Text) : Report :=
  ⟨[], err, some ⟨subject, cause⟩⟩

def outcome (r : Report) : Outcome where
  exit := if r.failure.isSome then 1 else 0
  out := endLines r.out
  err := endLines (r.err ++ (r.failure.map Failure.text).toList)

end Report

def encodingLines (d : OpcodeDescriptor) : List Text :=
  [d.text, "  map:        ".toList ++ d.fields.map.name,
    "  main byte:  ".toList ++ Text.hexByte d.fields.mainByte ++ " (mask ".toList ++
      Text.hexByte d.mainByteMask ++ [')'],
    "  modrm:      ".toList ++ d.fields.form.debug,
    "  immediate:  ".toList ++ d.fields.immediate.debug] ++
  match d.vex with
  | .ok v => ["  vex:        ".toList ++ v.text]
  | .error _ => []

def encodingReport (json verbose : Bool) (t : Text) (mode : Option Mode)
    (rm : Option OperandKind) : Report :=
  match Code.ofText t with
  | .error e => .failed [] "Failed to parse encoding".toList (some e.message)
  | .ok code =>
    let notes :=
      if verbose then
        ["tokens: ".toList ++ Text.joinWith [',', ' '] (code.tokens.map Token.debug)]
      else []
    match code.compile ⟨mode.map Mode.isLong, rm, none⟩ with
    | .error e => .failed notes "Failed to compile encoding".toList (some e.message)
    | .ok d => .done (if json then [(write d).text] else encodingLines d) notes

def vexReport (json : Bool) (t : Text) : Report :=
  match VexDescriptor.ofText t with
  | .error e => .failed [] "Failed to parse VEX descriptor".toList (some e.message)
  | .ok v =>
    if json then .done [(write v.fields).text] []
    else
      .done [v.text, "  bits: 0x".toList ++ (Text.hex v.bits).leftpad 4 '0'] []

/-- The last binding of a letter counts. -/
def lookUp (bindings : List (Char × Bits)) (c : Char) : Option Bits :=
  (bindings.reverse.find? (·.1 == c)).map (·.2)

def patternValue (pattern : Text) (bindings : List (Char × Bits)) :
    Except EncodingError (Option Bits) :=
  if Pattern.isConstant pattern || bindings != [] then
    match Pattern.evaluate pattern (lookUp bindings) with
    | .error e => .error e
    | .ok v => .ok (some v)
  else .ok none

def bitsReport (json : Bool) (pattern : Text) (bindings : List (Char × Bits)) : Report :=
  match Pattern.normalize pattern with
  | .error e => .failed [] "Invalid bit pattern".toList (some e.message)
  | .ok normal =>
    match patternValue normal bindings with
    | .error e => .failed [] "Failed to evaluate bit pattern".toList (some e.message)
    | .ok value =>
      let pretty := Pattern.pretty normal
      if json then
        .done [(Json.sorted (.obj [("normalized".toList, .str normal),
          ("pretty".toList, .str pretty), ("value".toList, write value)])).text] []
      else
        .done (pretty :: (value.map fun v =>
          "  value: ".toList ++ v.text ++ " (".toList ++ Text.decimal v.length.toNat ++
            " bits)".toList).toList) []

def loadTable (verbose : Bool) (read : Reader) (path : Text) :
    Except Report (OpcodeTable × List Text) :=
  match read path with
  | .error cause => .error (.failed [] ("Failed to read table: ".toList ++ path) (some cause))
  | .ok t =>
    let loaded := OpcodeTable.ofText t
    let notes :=
      if verbose then
        loaded.errors.map (fun e => "warning: ".toList ++ path ++ ": ".toList ++ e.message) ++
          ["loaded ".toList ++ Text.decimal loaded.table.size ++ " encodings from ".toList ++ path]
      else []
    if loaded.table.isEmpty then
      .error (.failed notes ("No encodings in ".toList ++ path) none)
    else .ok (loaded.table, notes)

def hexFailure (t : Text) : HexFault → Report
  | .shape =>
    .failed [] ("Expected an even number of hex digits in '".toList ++ t ++ ['\'']) none
  | .digits pair fault =>
    .failed [] ("Invalid hex byte '".toList ++ pair ++ ['\'']) (some fault.message)

def bytesColumn (bytes : List UInt8) : Text := (bytesText bytes).rightpad 24 ' '

def decodedLine (bytes : List UInt8) (d : Instruction) : Text :=
  bytesColumn (bytes.take d.length) ++ ' ' :: d.mnemonic.rightpad 10 ' ' ++ ' ' :: d.opcode.text

def sweepLine (bytes : List UInt8) (offset : Nat) :
    Except DecodeError Instruction → Text
  | .ok d => (Text.hex offset).leftpad 4 ' ' ++ ':' :: ' ' :: decodedLine bytes d
  | .error e =>
    (Text.hex offset).leftpad 4 ' ' ++ ':' :: ' ' :: bytesColumn (bytes.take 1) ++
      " <".toList ++ e.message ++ ['>']

def sweepJson (offset : Nat) : Except DecodeError Instruction → Json
  | .ok d => .obj [("offset".toList, .nat offset), ("instruction".toList, write d)]
  | .error e => .obj [("offset".toList, .nat offset), ("error".toList, .str e.message)]

def sweepLines (json : Bool) (t : OpcodeTable) (bytes : List UInt8) (mode : Mode) : List Text :=
  let answers := t.sweep bytes mode
  if json then
    [(Json.sorted (.arr (answers.map fun (offset, answer) => sweepJson offset answer))).text]
  else answers.map fun (offset, answer) => sweepLine (bytes.drop offset) offset answer

def decodeReport (json verbose : Bool) (read : Reader) (hex path : Text) (mode : Mode)
    (all : Bool) : Report :=
  match readHexBytes hex with
  | .error fault => hexFailure hex fault
  | .ok bytes =>
    match loadTable verbose read path with
    | .error report => report
    | .ok (table, notes) =>
      if all then .done (sweepLines json table bytes mode) notes
      else
        match table.decode bytes mode with
        | .error e =>
          .failed notes ("Failed to decode ".toList ++ bytesText bytes) (some e.message)
        | .ok d => .done [if json then (write d).text else decodedLine bytes d] notes

structure Tally where
  rows : Nat
  encodings : Nat
  failures : List RowError
  notes : List Text
  deriving DecidableEq, Repr

namespace Tally

def empty : Tally := ⟨0, 0, [], []⟩

def addFailure (t : Tally) (line : Nat) (e : EncodingError) : Tally :=
  { t with rows := t.rows + 1, failures := t.failures ++ [⟨line, e⟩] }

def addRow (t : Tally) (line : Nat) (row : Except EncodingError Row) : Tally :=
  match row with
  | .error e => t.addFailure line e
  | .ok r =>
    match OpcodeTable.entriesOfRow r with
    | .error e => t.addFailure line e
    | .ok entries =>
      { t with
        rows := t.rows + 1
        encodings := t.encodings + entries.length
        notes := t.notes ++ ["line ".toList ++ Text.decimal line ++ ": ".toList ++ r.mnemonic ++
          " -> ".toList ++ Text.decimal entries.length ++ " encodings".toList] }

def ofText (t : Text) : Tally :=
  (Row.readAll t).foldl (fun tally (line, row) => tally.addRow line row) empty

def failureLine (path : Text) (e : RowError) : Text :=
  path ++ ':' :: Text.decimal e.line ++ ": ".toList ++ e.error.message

def summary (t : Tally) : Text :=
  Text.decimal t.rows ++ " rows, ".toList ++ Text.decimal t.encodings ++ " encodings, ".toList ++
    Text.decimal t.failures.length ++ " failures".toList

def json (t : Tally) : Json :=
  .obj [("rows".toList, .nat t.rows), ("encodings".toList, .nat t.encodings),
    ("failures".toList, .nat t.failures.length)]

def failure? (t : Tally) : Option Failure :=
  if t.failures = [] then none
  else
    some ⟨Text.decimal t.failures.length ++ " of ".toList ++ Text.decimal t.rows ++
      " rows failed".toList, none⟩

end Tally

/-- The failures come before the counts. -/
def checkReport (json verbose : Bool) (read : Reader) (path : Text) : Report :=
  match read path with
  | .error cause => .failed [] ("Failed to read table: ".toList ++ path) (some cause)
  | .ok t =>
    let tally := Tally.ofText t
    { out := tally.failures.map (Tally.failureLine path) ++
        [if json then (Json.sorted tally.json).text else tally.summary]
      err := if verbose then tally.notes else []
      failure := tally.failure? }

def Invocation.report (i : Invocation) (read : Reader) : Report :=
  match i.command with
  | .encoding code mode rm => encodingReport i.json i.verbose code mode rm
  | .vex t => vexReport i.json t
  | .bits pattern bindings => bitsReport i.json pattern bindings
  | .decode bytes table mode all => decodeReport i.json i.verbose read bytes table mode all
  | .check path => checkReport i.json i.verbose read path

def Invocation.path? (i : Invocation) : Option Text :=
  match i.command with
  | .decode _ table _ _ => some table
  | .check path => some path
  | _ => none

/-- Arguments that make no sense are answered by exit code 2 alone. -/
def run (args : List Text) (read : Reader) : Outcome :=
  match Invocation.ofArguments? args with
  | none => ⟨2, [], []⟩
  | some i => (i.report read).outcome

end X86Encoding.CommandLine
