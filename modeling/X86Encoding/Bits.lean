import X86Encoding.Error

set_option autoImplicit false

namespace X86Encoding

/-- The value fits the width where it comes from `make`. One that is read from JSON is taken as
it stands. -/
structure Bits where
  value : UInt64
  length : UInt8
  deriving DecidableEq, Repr

namespace Bits

def maxLength : Nat := 64

def empty : Bits := ⟨0, 0⟩

def isEmpty (v : Bits) : Bool := v.length == 0

def make (value : UInt64) (length : UInt8) : Except EncodingError Bits :=
  if maxLength < length.toNat then .error (.argumentRange .length length.toNat)
  else if value.toNat < 2 ^ length.toNat then .ok ⟨value, length⟩
  else .error (.argumentRange .bits value.toNat)

def text (v : Bits) : Text :=
  if v.isEmpty then ['0', 'b'] else '0' :: 'b' :: Text.binary v.length.toNat v.value.toNat

end Bits
end X86Encoding
