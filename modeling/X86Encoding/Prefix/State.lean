import X86Encoding.Prefix.Extended
import X86Encoding.Prefix.LegacyList

set_option autoImplicit false

namespace X86Encoding

structure PrefixState where
  mode : Mode
  legacy : PrefixList
  extended : Option ExtendedPrefix
  map : OpcodeMap
  deriving DecidableEq

namespace PrefixState

def initial (mode : Mode) : PrefixState := ⟨mode, .empty, none, .primary⟩

def rex? (s : PrefixState) : Option Rex :=
  match s.extended with
  | some (.rex p) => some p
  | _ => none

def vector? (s : PrefixState) : Option VectorPrefix :=
  match s.extended with
  | some (.vector p) => some p
  | _ => none

def kind? (s : PrefixState) : Option VexKind := s.vector?.map (·.kind)

def vectorSize? (s : PrefixState) : Option VectorSize := s.vector?.map (·.vectorSize)

def isPromoted (s : PrefixState) : Bool :=
  match s.extended with
  | some (.rex p) => p.w
  | some (.vector p) => p.w
  | none => false

/-- Prefix 67 switches to 16 bits from 32, and to 32 bits from 16 and from 64. -/
def addressSize (s : PrefixState) : AddressSize :=
  if s.legacy.contains .addressSize then
    match s.mode with
    | .ia16 => .a32
    | .ia32 => .a16
    | .x64 => .a32
  else s.mode.addressSize

/-- Promotion counts in long mode only, and wins over prefix 66. -/
def operandSize (s : PrefixState) : IntegerSize :=
  if s.mode.isLong && s.isPromoted then .qword
  else if (s.mode.operandSize == .word) != s.legacy.contains .operandSize then .word
  else .dword

/-- Of the vector prefix if there is one, else of the legacy prefixes. -/
def simd (s : PrefixState) : SimdPrefix :=
  match s.vector? with
  | some p => p.simd
  | none => s.legacy.simd

end PrefixState
end X86Encoding
