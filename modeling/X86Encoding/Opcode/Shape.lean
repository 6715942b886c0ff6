import X86Encoding.ModRM
import X86Encoding.Prefix.State

set_option autoImplicit false

namespace X86Encoding

/-- `word` and `dword` ask for an operand size, `noPromotion` and `promotion` for the W bit. -/
inductive OperandSizeRule where
  | any | word | dword | noPromotion | promotion
  deriving DecidableEq, Repr

namespace OperandSizeRule

def all : List OperandSizeRule := [.any, .word, .dword, .noPromotion, .promotion]

def name : OperandSizeRule → Text
  | .any => "Any".toList
  | .word => "Word".toList
  | .dword => "Dword".toList
  | .noPromotion => "NoPromotion".toList
  | .promotion => "Promotion".toList

def promotion? : OperandSizeRule → Option Bool
  | .any => none
  | .promotion => some true
  | .word | .dword | .noPromotion => some false

def ofPromotion : Option Bool → OperandSizeRule
  | none => .any
  | some true => .promotion
  | some false => .noPromotion

/-- Prefix 66, which selects `word` and `dword`, cannot stand before a vector prefix. -/
def isVexCompatible : OperandSizeRule → Bool
  | .word | .dword => false
  | _ => true

def admits (r : OperandSizeRule) (s : PrefixState) : Bool :=
  match r with
  | .any => true
  | .word => s.operandSize == .word
  | .dword => s.operandSize == .dword
  | .noPromotion => !s.isPromoted
  | .promotion => s.isPromoted

end OperandSizeRule

/-- Whether a ModRM byte follows, and which. `mainByteReg` has none, and a register in the low
three bits of the main byte; the `reg` forms fix the middle field. -/
inductive AddressingForm where
  | noModRM
  | mainByteReg
  | any
  | regAnyRM (reg : UInt8)
  | regDirectRM (reg : UInt8)
  | regMemoryRM (reg : UInt8)
  | value (byte : UInt8)
  deriving DecidableEq, Repr

namespace AddressingForm

def hasModRM : AddressingForm → Bool
  | .noModRM | .mainByteReg => false
  | _ => true

def mainByteMask : AddressingForm → UInt8
  | .mainByteReg => 0xF8
  | _ => 0xFF

def fixedReg? : AddressingForm → Option UInt8
  | .regAnyRM reg | .regDirectRM reg | .regMemoryRM reg => some reg
  | .value byte => some (ModRM.ofByte byte).reg
  | _ => none

def admits : AddressingForm → Option ModRM → Bool
  | .noModRM, m | .mainByteReg, m => m.isNone
  | _, none => false
  | .any, some _ => true
  | .regAnyRM reg, some m => m.reg == reg
  | .regDirectRM reg, some m => m.reg == reg && m.isDirect
  | .regMemoryRM reg, some m => m.reg == reg && !m.isDirect
  | .value byte, some m => m.toByte == byte

/-- As it stands behind the main byte. The memory form looks like the one for any operand. -/
def text : AddressingForm → Text
  | .noModRM => []
  | .mainByteReg => "+r".toList
  | .any => "/r".toList
  | .regAnyRM reg | .regMemoryRM reg => '/' :: Text.decimal reg.toNat
  | .regDirectRM reg => Text.hexByte ((0xC0 : UInt8) ||| reg <<< 3) ++ "+r".toList
  | .value byte => Text.hexByte byte

def name : AddressingForm → Text
  | .noModRM => "None".toList
  | .mainByteReg => "MainByteReg".toList
  | .any => "Any".toList
  | .regAnyRM _ => "FixedRegAnyRm".toList
  | .regDirectRM _ => "FixedRegDirectRm".toList
  | .regMemoryRM _ => "FixedRegMemRm".toList
  | .value _ => "FixedValue".toList

def parameter? : AddressingForm → Option UInt8
  | .noModRM | .mainByteReg | .any => none
  | .regAnyRM reg | .regDirectRM reg | .regMemoryRM reg => some reg
  | .value byte => some byte

def debug (f : AddressingForm) : Text :=
  match f.parameter? with
  | none => f.name
  | some n => f.name ++ '(' :: Text.decimal n.toNat ++ [')']

end AddressingForm

inductive VariableImmediate where
  | wordOrDword | wordDwordOrQword
  deriving DecidableEq, Repr

namespace VariableImmediate

def all : List VariableImmediate := [.wordOrDword, .wordDwordOrQword]

def name : VariableImmediate → Text
  | .wordOrDword => "WordOrDword".toList
  | .wordDwordOrQword => "WordDwordOrQword".toList

def token : VariableImmediate → Text
  | .wordOrDword => "iwd".toList
  | .wordDwordOrQword => "iwdq".toList

def bytes (v : VariableImmediate) (operand : IntegerSize) (address : AddressSize) : Nat :=
  match v with
  | .wordOrDword => if operand = .word then 2 else 4
  | .wordDwordOrQword => address.bytes

end VariableImmediate

/-- All immediates together: a number of bytes, and perhaps one of variable size. -/
structure ImmediateSize where
  fixedBytes : UInt8
  varying : Option VariableImmediate
  deriving DecidableEq, Repr

namespace ImmediateSize

def zero : ImmediateSize := ⟨0, none⟩

def fixed (n : UInt8) : ImmediateSize := ⟨n, none⟩

/-- The size where it does not depend on the prefixes. -/
def fixed? (s : ImmediateSize) : Option Nat :=
  match s.varying with
  | none => some s.fixedBytes.toNat
  | some _ => none

def isZero (s : ImmediateSize) : Bool := s.fixedBytes == 0 && s.varying.isNone

def bytes (s : ImmediateSize) (operand : IntegerSize) (address : AddressSize) : Nat :=
  s.fixedBytes.toNat + (s.varying.map fun v => v.bytes operand address).getD 0

def fixedTokens (n : Nat) : List Text :=
  List.replicate (n / 8) "iq".toList ++ List.replicate (n % 8 / 4) "id".toList ++
    List.replicate (n % 4 / 2) "iw".toList ++ List.replicate (n % 2) "ib".toList

def tokens (s : ImmediateSize) : List Text :=
  fixedTokens s.fixedBytes.toNat ++ (s.varying.map VariableImmediate.token).toList

def text (s : ImmediateSize) : Text := Text.joinWith [' '] s.tokens

def debug (s : ImmediateSize) : Text :=
  let varying :=
    match s.varying with
    | none => "None".toList
    | some v => "Some(".toList ++ v.name ++ [')']
  "ImmediateSizeEncoding \x7b fixed_bytes: ".toList ++ Text.decimal s.fixedBytes.toNat ++
    ", variable: ".toList ++ varying ++ " \x7d".toList

end ImmediateSize
end X86Encoding
