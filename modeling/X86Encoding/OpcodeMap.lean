import X86Encoding.Text

set_option autoImplicit false

namespace X86Encoding

inductive OpcodeMap where
  | primary | escape0F | escape0F38 | escape0F3A | xop8 | xop9 | xop10
  deriving DecidableEq, Repr

namespace OpcodeMap

def all : List OpcodeMap :=
  [.primary, .escape0F, .escape0F38, .escape0F3A, .xop8, .xop9, .xop10]

def name : OpcodeMap → Text
  | .primary => "Default".toList
  | .escape0F => "Escape0F".toList
  | .escape0F38 => "Escape0F38".toList
  | .escape0F3A => "Escape0F3A".toList
  | .xop8 => "Xop8".toList
  | .xop9 => "Xop9".toList
  | .xop10 => "Xop10".toList

@[grind] def isXop : OpcodeMap → Bool
  | .xop8 | .xop9 | .xop10 => true
  | _ => false

def ofVexSelect? (n : UInt8) : Option OpcodeMap :=
  if n = 1 then some .escape0F
  else if n = 2 then some .escape0F38
  else if n = 3 then some .escape0F3A
  else none

def ofXopSelect? (n : UInt8) : Option OpcodeMap :=
  if n = 8 then some .xop8
  else if n = 9 then some .xop9
  else if n = 10 then some .xop10
  else none

def index : OpcodeMap → Nat
  | .primary => 0
  | .escape0F => 1
  | .escape0F38 => 2
  | .escape0F3A => 3
  | .xop8 => 4
  | .xop9 => 5
  | .xop10 => 6

def ofIndex? (n : Nat) : Option OpcodeMap := all[n]?

@[simp] theorem ofIndex?_index (m : OpcodeMap) : ofIndex? m.index = some m := by cases m <;> rfl

/-- The field of dotted notation that names the map. -/
def vexName? : OpcodeMap → Option Text
  | .primary => none
  | .escape0F => some "0f".toList
  | .escape0F38 => some "0f38".toList
  | .escape0F3A => some "0f3a".toList
  | .xop8 => some "m8".toList
  | .xop9 => some "m9".toList
  | .xop10 => some "m10".toList

/-- The bytes that select the map without a VEX-family prefix. -/
def escapeBytes : OpcodeMap → List UInt8
  | .escape0F => [0x0F]
  | .escape0F38 => [0x0F, 0x38]
  | .escape0F3A => [0x0F, 0x3A]
  | _ => []

end OpcodeMap
end X86Encoding
