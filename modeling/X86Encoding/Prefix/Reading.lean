import X86Encoding.Prefix.State

set_option autoImplicit false

namespace X86Encoding

def LegacyPrefix.leading : List UInt8 → List LegacyPrefix
  | [] => []
  | b :: rest =>
    match ofByte? b with
    | some p => p :: leading rest
    | none => []

/-- The map that escape bytes at the start select, and their number. -/
def OpcodeMap.leading : List UInt8 → OpcodeMap × Nat
  | 0x0F :: 0x38 :: _ => (.escape0F38, 2)
  | 0x0F :: 0x3A :: _ => (.escape0F3A, 2)
  | 0x0F :: _ => (.escape0F, 1)
  | _ => (.primary, 0)

namespace PrefixState

/-- A state and the number of bytes it was read from, or why it could not be read. -/
abbrev Reading := Except DecodeError (PrefixState × Nat)

def readEscape (mode : Mode) (legacy : PrefixList) (extended : Option ExtendedPrefix)
    (offset : Nat) (rest : List UInt8) : Reading :=
  let (map, size) := OpcodeMap.leading rest
  .ok (⟨mode, legacy, extended, map⟩, offset + size)

/-- Behind REX, which has to be the last prefix. -/
def readAfterRex (available : Nat) (mode : Mode) (legacy : PrefixList) (rex : Rex)
    (offset : Nat) : List UInt8 → Reading
  | [] => .error (.truncated (offset + 1) available)
  | b :: rest =>
    if (LegacyPrefix.ofByte? b).isSome || Rex.isByte b then
      .error (.invalidPrefix offset .rexNotLast)
    else readEscape mode legacy (some (.rex rex)) offset (b :: rest)

/-- The legacy prefixes that a vector prefix takes the place of. -/
def displaced : List LegacyPrefix := [.lock, .repne, .rep, .operandSize]

def readAfterLead (available : Nat) (mode : Mode) (legacy : PrefixList) (lead : VectorLead)
    (offset : Nat) : List UInt8 → Reading
  | [] => .error (.truncated (offset + 2) available)
  | b :: rest =>
    if lead.starts mode b then
      if legacy.toList.any displaced.contains then
        .error (.invalidPrefix offset .vectorAfterLegacy)
      else if (b :: rest).length < lead.payloadSize then
        .error (.truncated (offset + 1 + lead.payloadSize) available)
      else
        match lead.read? ((b :: rest).take lead.payloadSize) with
        | none => .error (.invalidPrefix offset (.malformed lead.byte))
        | some p =>
          .ok (⟨mode, legacy, some (.vector p), p.map⟩, offset + 1 + lead.payloadSize)
    else .ok (⟨mode, legacy, none, .primary⟩, offset)

def readAfterLegacy (available : Nat) (mode : Mode) (legacy : PrefixList) (offset : Nat) :
    List UInt8 → Reading
  | [] => .error (.truncated (offset + 1) available)
  | b :: rest =>
    if mode.isLong && Rex.isByte b then
      readAfterRex available mode legacy (.ofByte b) (offset + 1) rest
    else
      match VectorLead.ofByte? b with
      | some lead => readAfterLead available mode legacy lead offset rest
      | none => readEscape mode legacy none offset (b :: rest)

/-- The state at the start of `bytes`, and the number of bytes before the main opcode byte.
An eighth legacy prefix makes an instruction too long. -/
def read (bytes : List UInt8) (mode : Mode) : Reading :=
  let ps := LegacyPrefix.leading bytes
  match PrefixList.ofList ps with
  | .error _ => .error (.tooLong (PrefixList.capacity + 1))
  | .ok legacy =>
    readAfterLegacy bytes.length mode legacy ps.length (bytes.drop ps.length)

end PrefixState
end X86Encoding
