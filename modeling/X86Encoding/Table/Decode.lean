import X86Encoding.Prefix.Reading
import X86Encoding.Table.Basic

/-!
Decoding the instruction at the start of a list of bytes. Each candidate reads its own ModRM
byte, addressing bytes and immediate. Those that match have to agree on the length; the first
of them in table order is the answer.
-/

set_option autoImplicit false

namespace X86Encoding

structure Instruction where
  mnemonic : Text
  opcode : OpcodeDescriptor
  prefixes : PrefixState
  mainByte : UInt8
  modRM : Option ModRM
  imm8 : Option UInt8
  length : Nat
  deriving DecidableEq

/-- Where the main byte is: the prefixes before it, and the bytes of the instruction. -/
structure DecodePoint where
  bytes : List UInt8
  prefixes : PrefixState
  offset : Nat
  mainByte : UInt8
  deriving DecidableEq

structure EntryMatch where
  entry : TableEntry
  modRM : Option ModRM
  imm8 : Option UInt8
  length : Nat
  deriving DecidableEq, Repr

/-- What comes of trying one entry; `needs` tells how many bytes it would take. -/
inductive Trial where
  | found (m : EntryMatch)
  | mismatch
  | needs (count : Nat)
  deriving DecidableEq, Repr

namespace DecodePoint

def maxLength : Nat := 15

def opcodeEnd (p : DecodePoint) : Nat := p.offset + 1

def readModRM (p : DecodePoint) (d : OpcodeDescriptor) : Except Nat (Option ModRM × Nat) :=
  if d.hasModRM then
    match p.bytes.drop p.opcodeEnd with
    | [] => .error (p.opcodeEnd + 1)
    | b :: rest =>
      match (ModRM.ofByte b).addressingLength? p.prefixes.addressSize rest with
      | none => .error (p.opcodeEnd + 2)
      | some n => .ok (some (.ofByte b), p.opcodeEnd + 1 + n)
  else .ok (none, p.opcodeEnd)

def readImm8 (p : DecodePoint) (d : OpcodeDescriptor) (offset : Nat) :
    Except Nat (Option UInt8) :=
  if d.fields.immediate.fixed? = some 1 then
    match p.bytes[offset]? with
    | none => .error (offset + 1)
    | some b => .ok (some b)
  else .ok none

def immediateBytes (p : DecodePoint) (d : OpcodeDescriptor) : Nat :=
  d.fields.immediate.bytes p.prefixes.operandSize p.prefixes.addressSize

def attempt (p : DecodePoint) (e : TableEntry) : Trial :=
  match p.readModRM e.opcode with
  | .error n => .needs n
  | .ok (modRM, offset) =>
    match p.readImm8 e.opcode offset with
    | .error n => .needs n
    | .ok imm8 =>
      if e.opcode.accepts p.prefixes p.mainByte modRM imm8 then
        .found ⟨e, modRM, imm8, offset + p.immediateBytes e.opcode⟩
      else .mismatch

end DecodePoint

namespace Trial

def found? : Trial → Option EntryMatch
  | .found m => some m
  | _ => none

def needs? : Trial → Option Nat
  | .needs n => some n
  | _ => none

end Trial

namespace OpcodeTable

def trials (t : OpcodeTable) (p : DecodePoint) : List Trial :=
  (t.candidates p.prefixes p.mainByte).map p.attempt

/-- The verdict on what the candidates came to. Without a match the greatest need counts. -/
def verdict (p : DecodePoint) (trials : List Trial) : Except DecodeError Instruction :=
  match trials.filterMap Trial.found? with
  | [] =>
    match (trials.filterMap Trial.needs?).max? with
    | some needed => .error (.truncated needed p.bytes.length)
    | none => .error (.noMatch (p.bytes.take p.opcodeEnd))
  | first :: rest =>
    if rest.any fun m => m.length != first.length then
      .error (.ambiguous ((first :: rest).map fun m => m.entry.mnemonic))
    else if DecodePoint.maxLength < first.length then .error (.tooLong first.length)
    else if p.bytes.length < first.length then
      .error (.truncated first.length p.bytes.length)
    else
      .ok {
        mnemonic := first.entry.mnemonic
        opcode := first.entry.opcode
        prefixes := p.prefixes
        mainByte := p.mainByte
        modRM := first.modRM
        imm8 := first.imm8
        length := first.length }

def decode (t : OpcodeTable) (bytes : List UInt8) (mode : Mode) :
    Except DecodeError Instruction :=
  match PrefixState.read bytes mode with
  | .error e => .error e
  | .ok (prefixes, offset) =>
    match bytes[offset]? with
    | none => .error (.truncated (offset + 1) bytes.length)
    | some mainByte =>
      let p : DecodePoint := ⟨bytes, prefixes, offset, mainByte⟩
      verdict p (t.trials p)

end OpcodeTable
end X86Encoding
