import X86Encoding.Text

set_option autoImplicit false

namespace X86Encoding

inductive Mode where
  | ia16 | ia32 | x64
  deriving DecidableEq, Repr

inductive AddressSize where
  | a16 | a32 | a64
  deriving DecidableEq, Repr

inductive IntegerSize where
  | byte | word | dword | qword
  deriving DecidableEq, Repr

namespace Mode

def all : List Mode := [.ia16, .ia32, .x64]

def name : Mode → Text
  | .ia16 => "Ia16".toList
  | .ia32 => "Ia32".toList
  | .x64 => "X64".toList

def text : Mode → Text
  | .ia16 => "ia16".toList
  | .ia32 => "ia32".toList
  | .x64 => "x64".toList

def spellings : Mode → List Text
  | .ia16 => ["ia16".toList, "16".toList, "real".toList]
  | .ia32 => ["ia32".toList, "32".toList, "x86".toList]
  | .x64 => ["x64".toList, "64".toList, "long".toList, "x86_64".toList]

def ofText? (t : Text) : Option Mode := all.find? fun m => m.spellings.contains t.lower

def isLong (m : Mode) : Bool := m == .x64

def addressSize : Mode → AddressSize
  | .ia16 => .a16
  | .ia32 => .a32
  | .x64 => .a64

def operandSize : Mode → IntegerSize
  | .ia16 => .word
  | .ia32 | .x64 => .dword

end Mode

namespace AddressSize

def all : List AddressSize := [.a16, .a32, .a64]

def name : AddressSize → Text
  | .a16 => "A16".toList
  | .a32 => "A32".toList
  | .a64 => "A64".toList

def bits : AddressSize → Nat
  | .a16 => 16
  | .a32 => 32
  | .a64 => 64

def bytes (s : AddressSize) : Nat := s.bits / 8

end AddressSize

namespace IntegerSize

def all : List IntegerSize := [.byte, .word, .dword, .qword]

def name : IntegerSize → Text
  | .byte => "Byte".toList
  | .word => "Word".toList
  | .dword => "Dword".toList
  | .qword => "Qword".toList

def bytes : IntegerSize → Nat
  | .byte => 1
  | .word => 2
  | .dword => 4
  | .qword => 8

end IntegerSize
end X86Encoding
