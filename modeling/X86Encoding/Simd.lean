import X86Encoding.Text

set_option autoImplicit false

namespace X86Encoding

/-- A prefix byte that selects an opcode, or `np` for none. -/
inductive SimdPrefix where
  | np | p66 | pF3 | pF2
  deriving DecidableEq, Repr

inductive VectorSize where
  | v128 | v256 | v512
  deriving DecidableEq, Repr

inductive VexKind where
  | vex | xop | evex
  deriving DecidableEq, Repr

namespace SimdPrefix

def all : List SimdPrefix := [.np, .p66, .pF3, .pF2]

def name : SimdPrefix → Text
  | .np => "None".toList
  | .p66 => "Prefix66".toList
  | .pF3 => "PrefixF3".toList
  | .pF2 => "PrefixF2".toList

def ofPP (n : Nat) : SimdPrefix :=
  if n % 4 = 0 then .np else if n % 4 = 1 then .p66 else if n % 4 = 2 then .pF3 else .pF2

def pp : SimdPrefix → Nat
  | .np => 0
  | .p66 => 1
  | .pF3 => 2
  | .pF2 => 3

@[simp] theorem ofPP_pp (p : SimdPrefix) : ofPP p.pp = p := by cases p <;> rfl

def byte? : SimdPrefix → Option UInt8
  | .np => none
  | .p66 => some 0x66
  | .pF3 => some 0xF3
  | .pF2 => some 0xF2

def token : SimdPrefix → Text
  | .np => "np".toList
  | .p66 => "66".toList
  | .pF3 => "f3".toList
  | .pF2 => "f2".toList

end SimdPrefix

namespace VectorSize

def all : List VectorSize := [.v128, .v256, .v512]

def name : VectorSize → Text
  | .v128 => "V128".toList
  | .v256 => "V256".toList
  | .v512 => "V512".toList

def ofL? (n : Nat) : Option VectorSize := all[n]?

def l : VectorSize → Nat
  | .v128 => 0
  | .v256 => 1
  | .v512 => 2

def bits (s : VectorSize) : Nat := 128 * 2 ^ s.l

end VectorSize

namespace VexKind

def all : List VexKind := [.vex, .xop, .evex]

def name : VexKind → Text
  | .vex => "Vex".toList
  | .xop => "Xop".toList
  | .evex => "Evex".toList

def keyword : VexKind → Text
  | .vex => "vex".toList
  | .xop => "xop".toList
  | .evex => "evex".toList

end VexKind
end X86Encoding
