import X86Encoding.Opcode.Matching
import X86Encoding.Row.Basic

set_option autoImplicit false

namespace X86Encoding

structure TableEntry where
  mnemonic : Text
  opcode : OpcodeDescriptor
  deriving DecidableEq, Repr

structure OpcodeTable where
  entries : List TableEntry
  deriving DecidableEq, Repr

namespace OpcodeTable

def empty : OpcodeTable := ⟨[]⟩

def size (t : OpcodeTable) : Nat := t.entries.length

def isEmpty (t : OpcodeTable) : Bool := t.entries.isEmpty

def append (t : OpcodeTable) (entries : List TableEntry) : OpcodeTable := ⟨t.entries ++ entries⟩

def push (t : OpcodeTable) (mnemonic : Text) (d : OpcodeDescriptor) : OpcodeTable :=
  t.append [⟨mnemonic, d⟩]

def entriesOfRow (r : Row) : Except EncodingError (List TableEntry) :=
  if r.isPseudo then .ok []
  else
    match r.opcodes with
    | .error e => .error e
    | .ok opcodes => .ok (opcodes.map fun (mnemonic, d) => ⟨mnemonic, d⟩)

def entriesOfLine : Except EncodingError Row → Except EncodingError (List TableEntry)
  | .error e => .error e
  | .ok r => entriesOfRow r

structure Loaded where
  table : OpcodeTable
  errors : List RowError
  deriving DecidableEq, Repr

/-- Adds the entries of numbered rows in order; a row with a fault adds an error and nothing
else. -/
def addRows (loaded : Loaded) : List (Nat × Except EncodingError Row) → Loaded
  | [] => loaded
  | (line, row) :: rest =>
    match entriesOfLine row with
    | .ok entries => addRows { loaded with table := loaded.table.append entries } rest
    | .error e => addRows { loaded with errors := loaded.errors ++ [⟨line, e⟩] } rest

def ofText (t : Text) : Loaded := addRows ⟨empty, []⟩ (Row.readAll t)

/-- The entries that the prefixes and the main byte leave. -/
def candidates (t : OpcodeTable) (s : PrefixState) (mainByte : UInt8) : List TableEntry :=
  t.entries.filter fun e => e.opcode.acceptsMainByte s mainByte

end OpcodeTable
end X86Encoding
