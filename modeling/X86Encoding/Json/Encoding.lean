import X86Encoding.Bits
import X86Encoding.Json.Names
import X86Encoding.Opcode.Descriptor
import X86Encoding.Prefix.State

/-!
JSON forms of prefixes and descriptors. Prefix lists and descriptors are checked when they are
read, so that what is read is as valid as what is made; a value of a fixed width is not.
-/

set_option autoImplicit false

namespace X86Encoding

open JsonForm

instance : JsonForm Bits where
  write v := .obj [("bits".toList, write v.value), ("length".toList, write v.length)]
  read? j := do
    let [value, length] ← members? ["bits".toList, "length".toList] j | none
    return ⟨← readMember? value, ← readMember? length⟩

instance : JsonForm ModRM where
  write m :=
    .obj [("mod_".toList, write m.mod), ("reg".toList, write m.reg), ("rm".toList, write m.rm)]
  read? j := do
    let [mod, reg, rm] ← members? ["mod_".toList, "reg".toList, "rm".toList] j | none
    return ⟨← readMember? mod, ← readMember? reg, ← readMember? rm⟩

instance : JsonForm Sib where
  write s :=
    .obj [("scale".toList, write s.scale), ("index".toList, write s.index),
      ("base".toList, write s.base)]
  read? j := do
    let [scale, index, base] ← members? ["scale".toList, "index".toList, "base".toList] j | none
    return ⟨← readMember? scale, ← readMember? index, ← readMember? base⟩

instance : JsonForm Rex where
  write p :=
    .obj [("w".toList, write p.w), ("r".toList, write p.r), ("x".toList, write p.x),
      ("b".toList, write p.b)]
  read? j := do
    let [w, r, x, b] ← members? ["w".toList, "r".toList, "x".toList, "b".toList] j | none
    return ⟨← readMember? w, ← readMember? r, ← readMember? x, ← readMember? b⟩

instance : JsonForm VectorPrefix where
  write p :=
    .obj [("vex_type".toList, write p.kind), ("vector_size".toList, write p.vectorSize),
      ("simd_prefix".toList, write p.simd), ("map".toList, write p.map),
      ("w".toList, write p.w), ("r".toList, write p.r), ("x".toList, write p.x),
      ("b".toList, write p.b), ("vvvv".toList, write p.vvvv)]
  read? j := do
    let [kind, vectorSize, simd, map, w, r, x, b, vvvv] ←
      members? ["vex_type".toList, "vector_size".toList, "simd_prefix".toList, "map".toList,
        "w".toList, "r".toList, "x".toList, "b".toList, "vvvv".toList] j | none
    return {
      kind := ← readMember? kind
      vectorSize := ← readMember? vectorSize
      simd := ← readMember? simd
      map := ← readMember? map
      w := ← readMember? w
      r := ← readMember? r
      x := ← readMember? x
      b := ← readMember? b
      vvvv := ← readMember? vvvv }

instance : JsonForm ExtendedPrefix where
  write
    | .rex p => .obj [("Rex".toList, write p)]
    | .vector p => .obj [("Xex".toList, write p)]
  read? j := do
    let (name, some payload) ← choice? j | none
    if name = "Rex".toList then return .rex (← read? payload)
    else if name = "Xex".toList then return .vector (← read? payload)
    else none

instance : JsonForm PrefixList where
  write l := write l.toList
  read? j := do (PrefixList.ofList (← read? j)).toOption

instance : JsonForm PrefixState where
  write s :=
    .obj [("code_segment".toList, write s.mode), ("legacy".toList, write s.legacy),
      ("non_legacy".toList, write s.extended), ("map".toList, write s.map)]
  read? j := do
    let [mode, legacy, extended, map] ←
      members? ["code_segment".toList, "legacy".toList, "non_legacy".toList, "map".toList] j
      | none
    return ⟨← readMember? mode, ← readMember? legacy, ← readMember? extended,
      ← readMember? map⟩

instance : JsonForm VexFields where
  write f :=
    .obj [("vex_type".toList, write f.kind), ("reg_operand".toList, write f.role),
      ("vector_size".toList, write f.vectorSize), ("simd_prefix".toList, write f.simd),
      ("map".toList, write f.map), ("w".toList, write f.w)]
  read? j := do
    let [kind, role, vectorSize, simd, map, w] ←
      members? ["vex_type".toList, "reg_operand".toList, "vector_size".toList,
        "simd_prefix".toList, "map".toList, "w".toList] j | none
    return ⟨← readMember? kind, ← readMember? role, ← readMember? vectorSize,
      ← readMember? simd, ← readMember? map, ← readMember? w⟩

instance : JsonForm VexDescriptor where
  write v := .nat v.bits
  read? j := do (VexDescriptor.ofBits (← readNat? (2 ^ 16) j)).toOption

instance : JsonForm AddressingForm where
  write f :=
    match f.parameter? with
    | none => .str f.name
    | some n => .obj [(f.name, write n)]
  read? j := do
    match ← choice? j with
    | (name, none) | (name, some .null) =>
      [AddressingForm.noModRM, .mainByteReg, .any].find? (·.name == name)
    | (name, some payload) =>
      let n ← read? payload
      [AddressingForm.regAnyRM n, .regDirectRM n, .regMemoryRM n, .value n].find?
        (·.name == name)

instance : JsonForm ImmediateSize where
  write s :=
    .obj [("fixed_bytes".toList, write s.fixedBytes), ("variable".toList, write s.varying)]
  read? j := do
    let [fixedBytes, varying] ← members? ["fixed_bytes".toList, "variable".toList] j | none
    return ⟨← readMember? fixedBytes, ← readMember? varying⟩

namespace OpcodeFields

def memberNames : List Text :=
  ["x64".toList, "address_size".toList, "operand_size".toList, "vex_type".toList,
    "vector_size".toList, "simd_prefix".toList, "map".toList, "main_byte".toList,
    "addressing_form".toList, "immediate_size".toList, "imm8_ext".toList]

end OpcodeFields

instance : JsonForm OpcodeFields where
  write f :=
    .obj (OpcodeFields.memberNames.zip
      [write f.x64, write f.addressSize, write f.operandSize, write f.kind, write f.vectorSize,
        write f.simd, write f.map, write f.mainByte, write f.form, write f.immediate,
        write f.opcodeImmediate])
  read? j := do
    let [x64, addressSize, operandSize, kind, vectorSize, simd, map, mainByte, form, immediate,
      opcodeImmediate] ← members? OpcodeFields.memberNames j | none
    return {
      x64 := ← readMember? x64
      addressSize := ← readMember? addressSize
      operandSize := ← readMember? operandSize
      kind := ← readMember? kind
      vectorSize := ← readMember? vectorSize
      simd := ← readMember? simd
      map := ← readMember? map
      mainByte := ← readMember? mainByte
      form := ← readMember? form
      immediate := ← readMember? immediate
      opcodeImmediate := ← readMember? opcodeImmediate }

instance : JsonForm OpcodeDescriptor where
  write d := write d.fields
  read? j := do (OpcodeDescriptor.make (← read? j)).toOption

end X86Encoding
