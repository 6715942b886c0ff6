import X86Encoding.Opcode.Descriptor

set_option autoImplicit false

namespace X86Encoding.OpcodeDescriptor

/-- A size or prefix that the descriptor leaves open admits everything. -/
def acceptsMainByte (d : OpcodeDescriptor) (s : PrefixState) (mainByte : UInt8) : Bool :=
  d.validIn s.mode &&
    d.fields.addressSize.all (· == s.addressSize) &&
    s.kind? == d.fields.kind &&
    d.fields.vectorSize.all (s.vectorSize? == some ·) &&
    d.fields.operandSize.admits s &&
    d.fields.simd.all (· == s.simd) &&
    s.map == d.fields.map &&
    mainByte &&& d.mainByteMask == d.fields.mainByte

/-- The immediate has to be there exactly when the descriptor has one of one byte. -/
def accepts (d : OpcodeDescriptor) (s : PrefixState) (mainByte : UInt8) (modRM : Option ModRM)
    (imm8 : Option UInt8) : Bool :=
  d.acceptsMainByte s mainByte &&
    d.fields.form.admits modRM &&
    imm8.isSome == (d.fields.immediate.fixed? == some 1) &&
    d.fields.opcodeImmediate.all (imm8 == some ·)

end X86Encoding.OpcodeDescriptor
