import X86Encoding.Text

set_option autoImplicit false

namespace X86Encoding

inductive OperandKind where
  | register | registerOrMemory | memory | immediate | other
  deriving DecidableEq, Repr

namespace OperandKind

def all : List OperandKind := [.register, .registerOrMemory, .memory, .immediate, .other]

def name : OperandKind → Text
  | .register => "Register".toList
  | .registerOrMemory => "RegisterOrMemory".toList
  | .memory => "Memory".toList
  | .immediate => "Immediate".toList
  | .other => "Other".toList

def startsWithAny (starts : List Text) (t : Text) : Bool := starts.any (·.isPrefixOf t)

/-- The first class that fits: immediates and memory go by how the name starts, register or
memory by `rm` anywhere in it, registers by `reg` anywhere or by how it starts. -/
def ofTypeName (t : Text) : OperandKind :=
  let t := Text.lower t
  if startsWithAny ["imm".toList, "sbyte".toList, "udword".toList, "sdword".toList,
      "unity".toList] t then .immediate
  else if startsWithAny ["mem".toList, "xmem".toList, "ymem".toList, "zmem".toList] t then .memory
  else if Text.holds "rm".toList t then .registerOrMemory
  else if Text.holds "reg".toList t ||
      startsWithAny ["fpu".toList, "xmm0".toList, "reg_".toList] t then .register
  else .other

end OperandKind
end X86Encoding
