import X86Encoding.Simd

set_option autoImplicit false

namespace X86Encoding

inductive LegacyPrefix where
  | lock | repne | rep | cs | ss | ds | es | fs | gs | operandSize | addressSize
  deriving DecidableEq, Repr

inductive PrefixGroup where
  | lockAndRepeat | segment | operandSize | addressSize
  deriving DecidableEq, Repr

inductive Segment where
  | cs | ss | ds | es | fs | gs
  deriving DecidableEq, Repr

namespace PrefixGroup

def all : List PrefixGroup := [.lockAndRepeat, .segment, .operandSize, .addressSize]

def name : PrefixGroup → Text
  | .lockAndRepeat => "LockAndRepeat".toList
  | .segment => "SegmentOverride".toList
  | .operandSize => "OperandSizeOverride".toList
  | .addressSize => "AddressSizeOverride".toList

end PrefixGroup

namespace Segment

def all : List Segment := [.cs, .ss, .ds, .es, .fs, .gs]

def name : Segment → Text
  | .cs => "CS".toList
  | .ss => "SS".toList
  | .ds => "DS".toList
  | .es => "ES".toList
  | .fs => "FS".toList
  | .gs => "GS".toList

end Segment

namespace LegacyPrefix

def count : Nat := 11

def all : List LegacyPrefix :=
  [.lock, .repne, .rep, .cs, .ss, .ds, .es, .fs, .gs, .operandSize, .addressSize]

def name : LegacyPrefix → Text
  | .lock => "Lock".toList
  | .repne => "RepeatNotEqual".toList
  | .rep => "RepeatEqual".toList
  | .cs => "Cs".toList
  | .ss => "Ss".toList
  | .ds => "Ds".toList
  | .es => "Es".toList
  | .fs => "Fs".toList
  | .gs => "Gs".toList
  | .operandSize => "OperandSize".toList
  | .addressSize => "AddressSize".toList

def text : LegacyPrefix → Text
  | .lock => "lock".toList
  | .repne => "repne".toList
  | .rep => "rep".toList
  | .cs => "cs".toList
  | .ss => "ss".toList
  | .ds => "ds".toList
  | .es => "es".toList
  | .fs => "fs".toList
  | .gs => "gs".toList
  | .operandSize => "66".toList
  | .addressSize => "67".toList

def byte : LegacyPrefix → UInt8
  | .lock => 0xF0
  | .repne => 0xF2
  | .rep => 0xF3
  | .cs => 0x2E
  | .ss => 0x36
  | .ds => 0x3E
  | .es => 0x26
  | .fs => 0x64
  | .gs => 0x65
  | .operandSize => 0x66
  | .addressSize => 0x67

def ofByte? (b : UInt8) : Option LegacyPrefix := all.find? (·.byte == b)

@[simp] theorem ofByte?_byte (p : LegacyPrefix) : ofByte? p.byte = some p := by cases p <;> rfl

theorem byte_of_ofByte? {b : UInt8} {p : LegacyPrefix} (h : ofByte? b = some p) : p.byte = b := by
  have := List.find?_some h
  simpa using this

/-- Position in `all`, a digit of the packed list. -/
def index : LegacyPrefix → Nat
  | .lock => 0
  | .repne => 1
  | .rep => 2
  | .cs => 3
  | .ss => 4
  | .ds => 5
  | .es => 6
  | .fs => 7
  | .gs => 8
  | .operandSize => 9
  | .addressSize => 10

def ofIndex (n : Nat) : LegacyPrefix := (all[n % count]?).getD .lock

theorem index_lt (p : LegacyPrefix) : p.index < 11 := by cases p <;> decide

@[simp] theorem ofIndex_index (p : LegacyPrefix) : ofIndex p.index = p := by cases p <;> rfl

@[simp] theorem ofIndex_mod (n : Nat) : ofIndex (n % 11) = ofIndex n := by simp [ofIndex, count]

def group : LegacyPrefix → PrefixGroup
  | .lock | .repne | .rep => .lockAndRepeat
  | .cs | .ss | .ds | .es | .fs | .gs => .segment
  | .operandSize => .operandSize
  | .addressSize => .addressSize

def simd? : LegacyPrefix → Option SimdPrefix
  | .operandSize => some .p66
  | .repne => some .pF2
  | .rep => some .pF3
  | _ => none

def segment? : LegacyPrefix → Option Segment
  | .cs => some .cs
  | .ss => some .ss
  | .ds => some .ds
  | .es => some .es
  | .fs => some .fs
  | .gs => some .gs
  | _ => none

end LegacyPrefix
end X86Encoding
