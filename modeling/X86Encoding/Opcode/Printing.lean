import X86Encoding.Opcode.Descriptor
import X86Encoding.Vex.Dotted

set_option autoImplicit false

namespace X86Encoding.OpcodeDescriptor

def modeParts : Option Bool → List Text
  | some true => ["x64".toList]
  | some false => ["ia32".toList]
  | none => []

def addressParts : Option AddressSize → List Text
  | some size => ['a' :: Text.decimal size.bits]
  | none => []

def operandSizeParts : OperandSizeRule → List Text
  | .word => ["o16".toList]
  | .dword => ["o32".toList]
  | _ => []

def promotionParts : OperandSizeRule → List Text
  | .promotion => ["rex.w".toList]
  | .noPromotion => ["norexw".toList]
  | _ => []

/-- The SIMD prefix stands between the two parts of the operand size rule. -/
def legacyParts (f : OpcodeFields) : List Text :=
  operandSizeParts f.operandSize ++ (f.simd.map SimdPrefix.token).toList ++
    promotionParts f.operandSize ++ f.map.escapeBytes.map Text.hexByte

def prefixParts (d : OpcodeDescriptor) : List Text :=
  match d.vex with
  | .ok v => [v.text]
  | .error _ => legacyParts d.fields

def mainParts (f : OpcodeFields) : List Text :=
  match f.form with
  | .noModRM => [Text.hexByte f.mainByte]
  | .mainByteReg => [Text.hexByte f.mainByte ++ f.form.text]
  | form => [Text.hexByte f.mainByte, form.text]

def immediateParts (f : OpcodeFields) : List Text :=
  match f.opcodeImmediate with
  | some byte => [Text.hexByte byte]
  | none => f.immediate.tokens

def parts (d : OpcodeDescriptor) : List Text :=
  modeParts d.fields.x64 ++ addressParts d.fields.addressSize ++ d.prefixParts ++
    mainParts d.fields ++ immediateParts d.fields

def text (d : OpcodeDescriptor) : Text := Text.joinWith [' '] d.parts

def debug (d : OpcodeDescriptor) : Text := "OpcodeEncoding(".toList ++ d.text ++ [')']

end X86Encoding.OpcodeDescriptor
