import X86Encoding.Mode
import X86Encoding.OpcodeMap
import X86Encoding.Simd

/-!
The prefix that may stand between the legacy prefixes and the opcode: REX, or a vector prefix
of the VEX family (VEX in two forms, XOP, EVEX). Fields that the bytes hold inverted are kept
as they are meant.
-/

set_option autoImplicit false

namespace X86Encoding

structure Rex where
  w : Bool
  r : Bool
  x : Bool
  b : Bool
  deriving DecidableEq, Repr

namespace Rex

def isByte (b : UInt8) : Bool := b &&& 0xF0 == 0x40

def ofByte (b : UInt8) : Rex :=
  ⟨b &&& 0x08 != 0, b &&& 0x04 != 0, b &&& 0x02 != 0, b &&& 0x01 != 0⟩

def toByte (p : Rex) : UInt8 :=
  0x40 + (if p.w then 8 else 0) + (if p.r then 4 else 0) + (if p.x then 2 else 0) +
    (if p.b then 1 else 0)

@[simp] theorem ofByte_toByte (p : Rex) : ofByte p.toByte = p := by
  obtain ⟨w, r, x, b⟩ := p
  cases w <;> cases r <;> cases x <;> cases b <;> rfl

def isEmpty (p : Rex) : Bool := !p.w && !p.r && !p.x && !p.b

end Rex

structure VectorPrefix where
  kind : VexKind
  vectorSize : VectorSize
  simd : SimdPrefix
  map : OpcodeMap
  w : Bool
  r : Bool
  x : Bool
  b : Bool
  vvvv : UInt8
  deriving DecidableEq, Repr

inductive VectorLead where
  | vex2 | vex3 | xop | evex
  deriving DecidableEq, Repr

namespace VectorLead

def all : List VectorLead := [.vex2, .vex3, .xop, .evex]

def byte : VectorLead → UInt8
  | .vex2 => 0xC5
  | .vex3 => 0xC4
  | .xop => 0x8F
  | .evex => 0x62

def ofByte? (b : UInt8) : Option VectorLead := all.find? (·.byte == b)

def payloadSize : VectorLead → Nat
  | .vex2 => 1
  | .vex3 | .xop => 2
  | .evex => 3

/-- Whether the lead byte starts a prefix. It is POP with a ModRM byte below map 8, and LES,
LDS or BOUND outside long mode unless the next byte would be a ModRM byte of a register. -/
def starts (lead : VectorLead) (mode : Mode) (next : UInt8) : Bool :=
  match lead with
  | .xop => 8 ≤ next &&& 0x1F
  | _ => mode.isLong || 0xC0 ≤ next

end VectorLead

namespace VectorPrefix

/-- Bit `mask` of a byte, where fields are inverted. -/
def isClear (b mask : UInt8) : Bool := b &&& mask == 0

def isSet (b mask : UInt8) : Bool := b &&& mask != 0

def sizeOfBit (b : UInt8) : VectorSize := if isSet b 0x04 then .v256 else .v128

def vvvvOf (b : UInt8) : UInt8 := ~~~b >>> 3 &&& 0x0F

def ofVex2 (b : UInt8) : VectorPrefix where
  kind := .vex
  vectorSize := sizeOfBit b
  simd := .ofPP b.toNat
  map := .escape0F
  w := false
  r := isClear b 0x80
  x := false
  b := false
  vvvv := vvvvOf b

def ofThree (kind : VexKind) (map : OpcodeMap) (b₁ b₂ : UInt8) : VectorPrefix where
  kind := kind
  vectorSize := sizeOfBit b₂
  simd := .ofPP b₂.toNat
  map := map
  w := isSet b₂ 0x80
  r := isClear b₁ 0x80
  x := isClear b₁ 0x40
  b := isClear b₁ 0x20
  vvvv := vvvvOf b₂

def ofVex3? (b₁ b₂ : UInt8) : Option VectorPrefix :=
  (OpcodeMap.ofVexSelect? (b₁ &&& 0x1F)).map fun map => ofThree .vex map b₁ b₂

def ofXop? (b₁ b₂ : UInt8) : Option VectorPrefix :=
  (OpcodeMap.ofXopSelect? (b₁ &&& 0x1F)).map fun map => ofThree .xop map b₁ b₂

/-- Lead byte 62. Bit 2 of the second byte is always set, and length 3 is reserved. -/
def ofEvex? (p₀ p₁ p₂ : UInt8) : Option VectorPrefix :=
  if isClear p₁ 0x04 then none
  else
    match OpcodeMap.ofVexSelect? (p₀ &&& 0x07), VectorSize.ofL? (p₂ >>> 5 &&& 3).toNat with
    | some map, some size =>
      some {
        kind := .evex
        vectorSize := size
        simd := .ofPP p₁.toNat
        map := map
        w := isSet p₁ 0x80
        r := isClear p₀ 0x80
        x := isClear p₀ 0x40
        b := isClear p₀ 0x20
        vvvv := vvvvOf p₁ }
    | _, _ => none

end VectorPrefix

def VectorLead.read? : VectorLead → List UInt8 → Option VectorPrefix
  | .vex2, [b] => some (.ofVex2 b)
  | .vex3, [b₁, b₂] => VectorPrefix.ofVex3? b₁ b₂
  | .xop, [b₁, b₂] => VectorPrefix.ofXop? b₁ b₂
  | .evex, [p₀, p₁, p₂] => VectorPrefix.ofEvex? p₀ p₁ p₂
  | _, _ => none

inductive ExtendedPrefix where
  | rex (p : Rex)
  | vector (p : VectorPrefix)
  deriving DecidableEq, Repr

end X86Encoding
