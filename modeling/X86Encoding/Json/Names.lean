import X86Encoding.Condition
import X86Encoding.Json.Form
import X86Encoding.Opcode.Shape
import X86Encoding.Row.Operand
import X86Encoding.Row.Tuple
import X86Encoding.Vex.Descriptor

set_option autoImplicit false

namespace X86Encoding

open JsonForm

instance : JsonForm Mode := ofNames Mode.all Mode.name

instance : JsonForm AddressSize := ofNames AddressSize.all AddressSize.name

instance : JsonForm IntegerSize := ofNames IntegerSize.all IntegerSize.name

instance : JsonForm OpcodeMap := ofNames OpcodeMap.all OpcodeMap.name

instance : JsonForm SimdPrefix := ofNames SimdPrefix.all SimdPrefix.name

instance : JsonForm VectorSize := ofNames VectorSize.all VectorSize.name

instance : JsonForm VexKind := ofNames VexKind.all VexKind.name

instance : JsonForm Condition := ofNames Condition.all Condition.name

instance : JsonForm LegacyPrefix := ofNames LegacyPrefix.all LegacyPrefix.name

instance : JsonForm PrefixGroup := ofNames PrefixGroup.all PrefixGroup.name

instance : JsonForm Segment := ofNames Segment.all Segment.name

instance : JsonForm RegisterRole := ofNames RegisterRole.all RegisterRole.name

instance : JsonForm OperandSizeRule := ofNames OperandSizeRule.all OperandSizeRule.name

instance : JsonForm VariableImmediate := ofNames VariableImmediate.all VariableImmediate.name

instance : JsonForm OperandKind := ofNames OperandKind.all OperandKind.name

instance : JsonForm OperandField := ofNames OperandField.all OperandField.name

instance : JsonForm TupleType := ofNames TupleType.all TupleType.name

end X86Encoding
