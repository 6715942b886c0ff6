import X86Encoding.Opcode.Shape
import X86Encoding.Vex.Descriptor

/-!
Opcode descriptors: the mode, sizes, prefixes, map, main byte, ModRM form and immediates of
one variant of an instruction. A descriptor is a consistent choice of fields. Choices that
contradict each other are refused, never repaired.
-/

set_option autoImplicit false

namespace X86Encoding

structure OpcodeFields where
  /-- Long mode only, or outside long mode only. -/
  x64 : Option Bool
  addressSize : Option AddressSize
  operandSize : OperandSizeRule
  /-- No kind means that there is no vector prefix. -/
  kind : Option VexKind
  vectorSize : Option VectorSize
  simd : Option SimdPrefix
  map : OpcodeMap
  mainByte : UInt8
  form : AddressingForm
  immediate : ImmediateSize
  /-- The value of an immediate byte that belongs to the opcode. -/
  opcodeImmediate : Option UInt8
  deriving DecidableEq, Repr

namespace OpcodeFields

def initial : OpcodeFields where
  x64 := none
  addressSize := none
  operandSize := .any
  kind := none
  vectorSize := none
  simd := none
  map := .primary
  mainByte := 0
  form := .noModRM
  immediate := .zero
  opcodeImmediate := none

def vexFields? (f : OpcodeFields) : Option VexFields :=
  f.kind.map fun kind =>
    ⟨kind, none, f.vectorSize, f.simd.getD .np, f.map, f.operandSize.promotion?⟩

def isDirectValue : AddressingForm → Bool
  | .value byte => (ModRM.ofByte byte).isDirect
  | _ => true

/-- The rules, each with the fault of breaking it, in the order in which they are checked. -/
def rules (f : OpcodeFields) : List (Bool × EncodingError) :=
  [(f.addressSize != some .a64 || f.x64 == some true, .inconsistent .longAddress),
    (f.addressSize != some .a16 || f.x64 == some false, .inconsistent .shortAddress),
    (f.operandSize != .promotion || f.kind.isSome || f.x64 == some true,
      .inconsistent .promotedMode),
    (f.operandSize.isVexCompatible || f.kind.isNone, .inconsistent .sizedVex),
    (f.kind.isNone || f.simd.isSome, .inconsistent .vexSimdPrefix),
    (f.kind.isSome || f.vectorSize.isNone, .inconsistent .legacyVector),
    (f.kind.isSome || !f.map.isXop, .inconsistent .legacyXopMap),
    (f.form != .mainByteReg || f.mainByte &&& 7 == 0, .inconsistent .embeddedRegister),
    (f.form.fixedReg?.all (· ≤ 7),
      .argumentRange .modRMReg ((f.form.fixedReg?.map UInt8.toNat).getD 0)),
    (isDirectValue f.form, .inconsistent .fixedModRM),
    (f.opcodeImmediate.isNone || f.immediate.fixed? == some 1, .inconsistent .opcodeImmediate)] ++
  (f.vexFields?.map VexFields.rules).getD []

def fault? (f : OpcodeFields) : Option EncodingError := firstFault? f.rules

end OpcodeFields

abbrev OpcodeDescriptor := Checked OpcodeFields.fault?

namespace OpcodeDescriptor

abbrev make (f : OpcodeFields) : Except EncodingError OpcodeDescriptor := Checked.make f

def mainByteMask (d : OpcodeDescriptor) : UInt8 := d.fields.form.mainByteMask

def hasModRM (d : OpcodeDescriptor) : Bool := d.fields.form.hasModRM

def validIn (d : OpcodeDescriptor) (mode : Mode) : Bool := d.fields.x64.all (· == mode.isLong)

def vex (d : OpcodeDescriptor) : Except EncodingError VexDescriptor :=
  match d.fields.vexFields? with
  | none => .error (.invalidOperation .legacyEncoding)
  | some f => VexDescriptor.make f

end OpcodeDescriptor
end X86Encoding
