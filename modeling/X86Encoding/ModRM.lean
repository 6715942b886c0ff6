import X86Encoding.Mode

set_option autoImplicit false

namespace X86Encoding

structure ModRM where
  mod : UInt8
  reg : UInt8
  rm : UInt8
  deriving DecidableEq, Repr

structure Sib where
  scale : UInt8
  index : UInt8
  base : UInt8
  deriving DecidableEq, Repr

namespace ModRM

def ofByte (b : UInt8) : ModRM := ⟨b >>> 6 &&& 3, b >>> 3 &&& 7, b &&& 7⟩

/-- Bits of `mod` beyond the byte are lost. -/
def toByte (m : ModRM) : UInt8 := m.mod <<< 6 ||| (m.reg &&& 7) <<< 3 ||| (m.rm &&& 7)

def isDirect (m : ModRM) : Bool := m.mod == 3

def needsSib (m : ModRM) (size : AddressSize) : Bool :=
  size != .a16 && m.mod != 3 && m.rm == 4

/-- Bytes of displacement, save the four that a SIB byte without a base brings. -/
def displacementSize (m : ModRM) (size : AddressSize) : Nat :=
  if m.mod = 3 then 0
  else if m.mod = 1 then 1
  else
    match size with
    | .a16 => if m.mod = 2 || m.rm = 6 then 2 else 0
    | _ => if m.mod = 2 || m.rm = 5 then 4 else 0

end ModRM

namespace Sib

def ofByte (b : UInt8) : Sib := ⟨b >>> 6 &&& 3, b >>> 3 &&& 7, b &&& 7⟩

def scaleFactor (s : Sib) : UInt8 := 1 <<< s.scale

end Sib

namespace ModRM

/-- The number of SIB and displacement bytes at the start of `rest`, which follows the ModRM
byte; nothing if a SIB byte is needed and missing. -/
def addressingLength? (m : ModRM) (size : AddressSize) (rest : List UInt8) : Option Nat :=
  if m.needsSib size then
    match rest with
    | [] => none
    | b :: _ =>
      if m.mod = 0 && (Sib.ofByte b).base = 5 then some 5 else some (m.displacementSize size + 1)
  else some (m.displacementSize size)

end ModRM
end X86Encoding
