import X86Encoding.Code.Sequence
import X86Encoding.Condition
import X86Encoding.OperandKind
import X86Encoding.Opcode.Descriptor

/-!
The opcode descriptor that a code string stands for. The tokens are taken from left to right;
one that is out of its place or contradicts an earlier one is a fault.
-/

set_option autoImplicit false

namespace X86Encoding

/-- What a code string cannot tell: whether the row is for long mode only (or never), what the
operand in the ModRM byte is, and which condition is meant. -/
structure Code.Context where
  longMode : Option Bool
  rmKind : Option OperandKind
  condition : Option Condition
  deriving DecidableEq, Repr

def Code.Context.default : Code.Context := ⟨none, none, none⟩

inductive CompileFault where
  | text (fault : FormatFault)
  | operation (fault : OperationFault)
  deriving DecidableEq, Repr

/-- The fields so far, and whether the main byte and a ModRM form (or a register in the main
byte, which excludes one) have been seen. -/
structure Assembly where
  fields : OpcodeFields
  mainByteSeen : Bool
  modRMSeen : Bool
  deriving DecidableEq, Repr

namespace Assembly

abbrev Step := Except CompileFault Assembly

def fail (fault : FormatFault) : Step := .error (.text fault)

def setMode (a : Assembly) (x64 : Bool) : Step :=
  if a.fields.x64.all (· == x64) then .ok { a with fields.x64 := some x64 }
  else fail .conflictingModes

def setSimd (a : Assembly) (p : SimdPrefix) : Step :=
  if a.fields.kind.isSome || a.mainByteSeen then fail .misplacedSimdPrefix
  else if a.fields.simd.isSome then fail .duplicateSimdPrefix
  else .ok { a with fields.simd := some p }

def setMap (a : Assembly) (map : OpcodeMap) : Step :=
  if a.fields.kind.isSome || a.mainByteSeen then fail .misplacedEscape
  else .ok { a with fields.map := map }

def setMainByte (a : Assembly) (b : UInt8) : Assembly :=
  { a with fields.mainByte := b, mainByteSeen := true }

def setForm (a : Assembly) (form : AddressingForm) : Step :=
  if !a.mainByteSeen then fail .earlyModRM
  else if a.modRMSeen then fail .duplicateModRM
  else .ok { a with fields.form := form, modRMSeen := true }

def addImmediate (a : Assembly) (n : UInt8) : Step :=
  if 8 < a.fields.immediate.fixedBytes.toNat + n.toNat then fail .largeImmediate
  else .ok { a with fields.immediate.fixedBytes := a.fields.immediate.fixedBytes + n }

def setVarying (a : Assembly) (v : VariableImmediate) : Step :=
  if a.fields.immediate.varying.isSome then fail .multipleVariableImmediates
  else .ok { a with fields.immediate.varying := some v }

def setOperandSize (a : Assembly) (r : OperandSizeRule) : Assembly :=
  { a with fields.operandSize := r }

def setAddressSize (a : Assembly) (s : AddressSize) : Assembly :=
  { a with fields.addressSize := some s }

/-- A byte before the main byte of a legacy encoding, in its present map: a SIMD prefix, an
escape, or neither. -/
def leadByte? (a : Assembly) (b : UInt8) : Option (SimdPrefix ⊕ OpcodeMap) :=
  if a.fields.kind.isSome then none
  else
    match a.fields.map with
    | .primary =>
      if b = 0x66 then some (.inl .p66)
      else if b = 0xF2 then some (.inl .pF2)
      else if b = 0xF3 then some (.inl .pF3)
      else if b = 0x0F then some (.inr .escape0F)
      else none
    | .escape0F =>
      if b = 0x38 then some (.inr .escape0F38)
      else if b = 0x3A then some (.inr .escape0F3A)
      else none
    | _ => none

/-- Behind the main byte, a byte from C0 on is a ModRM byte as long as there is none; any other
is the value of an immediate, of which there may be one. -/
def addByte (a : Assembly) (b : UInt8) : Step :=
  if !a.mainByteSeen then
    match a.leadByte? b with
    | some (.inl p) => a.setSimd p
    | some (.inr map) => a.setMap map
    | none => .ok (a.setMainByte b)
  else if !a.modRMSeen && 0xC0 ≤ b then a.setForm (.value b)
  else if a.fields.opcodeImmediate.isSome then fail .trailingByte
  else { a with fields.opcodeImmediate := some b }.addImmediate 1

def addRegisterByte (a : Assembly) (b : UInt8) : Step :=
  if !a.mainByteSeen then
    let a := a.setMainByte b
    .ok { a with fields.form := .mainByteReg, modRMSeen := true }
  else if b < 0xC0 || b &&& 7 != 0 then fail .registerModRM
  else a.setForm (.regDirectRM (b >>> 3 &&& 7))

def addConditionByte (a : Assembly) (condition : Option Condition) (b : UInt8) : Step :=
  if a.mainByteSeen || b &&& 0x0F != 0 then fail .misplacedConditionCode
  else
    match condition with
    | none => .error (.operation .missingConditionCode)
    | some c => .ok (a.setMainByte (b ||| c.code))

def regForm (kind : Option OperandKind) (reg : UInt8) : AddressingForm :=
  match kind with
  | some .memory => .regMemoryRM reg
  | some .register => .regDirectRM reg
  | _ => .regAnyRM reg

def add (context : Code.Context) (a : Assembly) (t : Token) : Step :=
  match t with
  | .byte b => a.addByte b
  | .bytePlusRegister b => a.addRegisterByte b
  | .bytePlusCondition b => a.addConditionByte context.condition b
  | .modRMReg reg => a.setForm (regForm context.rmKind reg)
  | .modRM => a.setForm .any
  | .vex => if a.mainByteSeen then fail .lateVex else .ok a
  | .iwd | .rel => a.setVarying .wordOrDword
  | .iwdq => a.setVarying .wordDwordOrQword
  | .is4 | .ib | .ibSigned | .ibUnsigned | .rel8 | .iw | .seg | .id | .idSigned | .iq =>
    a.addImmediate t.immediateBytes
  | .o16 => .ok (a.setOperandSize .word)
  | .o32 => .ok (a.setOperandSize .dword)
  | .o64 => (a.setOperandSize .promotion).setMode true
  | .o64NoW => a.setMode true
  | .rexW => .ok (a.setOperandSize .promotion)
  | .noRexW => .ok (a.setOperandSize .noPromotion)
  | .a16 => (a.setAddressSize .a16).setMode false
  | .a32 => .ok (a.setAddressSize .a32)
  | .a64 => (a.setAddressSize .a64).setMode true
  | .operandDefault | .addressDefault => .ok a
  | .noSimd => a.setSimd .np
  | .x64 => a.setMode true
  | .ia32 => a.setMode false
  | .escape0F38 => a.setMap .escape0F38
  | .escape0F3A => a.setMap .escape0F3A
  | .marker .f2i => a.setSimd .pF2
  | .marker .f3i => a.setSimd .pF3
  | .marker _ => .ok a

def addAll (context : Code.Context) (a : Assembly) : List Token → Step
  | [] => .ok a
  | t :: rest =>
    match a.add context t with
    | .error e => .error e
    | .ok a' => a'.addAll context rest

/-- Before the first token. A descriptor of a vector prefix sets its fields at once, wherever
its place in the code string. -/
def start (context : Code.Context) (vex : Option VexDescriptor) : Assembly :=
  let fields := { OpcodeFields.initial with x64 := context.longMode }
  match vex with
  | none => ⟨fields, false, false⟩
  | some v =>
    let fields :=
      { fields with
        kind := some v.fields.kind
        vectorSize := v.fields.vectorSize
        simd := some v.fields.simd
        map := v.fields.map
        operandSize := .ofPromotion v.fields.w }
    ⟨fields, false, false⟩

end Assembly

namespace Code

def fault (c : Code) : CompileFault → EncodingError
  | .text f => .format f c.text
  | .operation f => .invalidOperation f

def compile (c : Code) (context : Code.Context) : Except EncodingError OpcodeDescriptor :=
  match (Assembly.start context c.vex).addAll context c.tokens with
  | .error e => .error (c.fault e)
  | .ok a =>
    if a.mainByteSeen then OpcodeDescriptor.make a.fields
    else .error (.format .noMainByte c.text)

def compileText (t : Text) (context : Code.Context) : Except EncodingError OpcodeDescriptor :=
  match ofText t with
  | .error e => .error e
  | .ok c => c.compile context

end Code
end X86Encoding
