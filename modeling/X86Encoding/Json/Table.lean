import X86Encoding.Json.Encoding
import X86Encoding.Table.Decode

set_option autoImplicit false

namespace X86Encoding

open JsonForm

instance : JsonForm Marker := ofNames Marker.all Marker.name

instance : JsonForm Token where
  write t :=
    match t with
    | .byte b | .bytePlusRegister b | .bytePlusCondition b | .modRMReg b =>
      .obj [(t.name, write b)]
    | .marker m => .obj [(t.name, write m)]
    | _ => .str t.name
  read? j := do
    match ← choice? j with
    | (name, none) | (name, some .null) =>
      (.vex :: Token.plainKeywords).find? (·.name == name)
    | (name, some payload) =>
      if name = "Misc".toList then return .marker (← read? payload)
      else
        let b ← read? payload
        [Token.byte b, .bytePlusRegister b, .bytePlusCondition b, .modRMReg b].find?
          (·.name == name)

instance : JsonForm Code where
  write c := .obj [("tokens".toList, write c.tokens), ("vex".toList, write c.vex)]
  read? j := do
    let [tokens, vex] ← members? ["tokens".toList, "vex".toList] j | none
    return ⟨← readMember? tokens, ← readMember? vex⟩

instance : JsonForm Operand where
  write o :=
    .obj [("field".toList, write o.field), ("type_name".toList, write o.typeName),
      ("kind".toList, write o.kind), ("relaxed".toList, write o.relaxed),
      ("colon".toList, write o.colon), ("flags".toList, write o.flags)]
  read? j := do
    let [field, typeName, kind, relaxed, colon, flags] ←
      members? ["field".toList, "type_name".toList, "kind".toList, "relaxed".toList,
        "colon".toList, "flags".toList] j | none
    return ⟨← readMember? field, ← readMember? typeName, ← readMember? kind,
      ← readMember? relaxed, ← readMember? colon, ← readMember? flags⟩

instance : JsonForm Row where
  write r :=
    .obj [("mnemonic".toList, write r.mnemonic), ("operands".toList, write r.operands),
      ("encoding".toList, write r.code), ("tuple_type".toList, write r.tuple),
      ("flags".toList, write r.flags)]
  read? j := do
    let [mnemonic, operands, code, tuple, flags] ←
      members? ["mnemonic".toList, "operands".toList, "encoding".toList, "tuple_type".toList,
        "flags".toList] j | none
    return ⟨← readMember? mnemonic, ← readMember? operands, ← readMember? code,
      ← readMember? tuple, ← readMember? flags⟩

instance : JsonForm TableEntry where
  write e := .obj [("mnemonic".toList, write e.mnemonic), ("encoding".toList, write e.opcode)]
  read? j := do
    let [mnemonic, opcode] ← members? ["mnemonic".toList, "encoding".toList] j | none
    return ⟨← readMember? mnemonic, ← readMember? opcode⟩

instance : JsonForm OpcodeTable where
  write t := .obj [("entries".toList, write t.entries)]
  read? j := do
    let [entries] ← members? ["entries".toList] j | none
    return ⟨← readMember? entries⟩

instance : JsonForm Instruction where
  write d :=
    .obj [("mnemonic".toList, write d.mnemonic), ("encoding".toList, write d.opcode),
      ("prefixes".toList, write d.prefixes), ("main_byte".toList, write d.mainByte),
      ("modrm".toList, write d.modRM), ("imm8".toList, write d.imm8),
      ("length".toList, write d.length)]
  read? j := do
    let [mnemonic, opcode, prefixes, mainByte, modRM, imm8, length] ←
      members? ["mnemonic".toList, "encoding".toList, "prefixes".toList, "main_byte".toList,
        "modrm".toList, "imm8".toList, "length".toList] j | none
    return {
      mnemonic := ← readMember? mnemonic
      opcode := ← readMember? opcode
      prefixes := ← readMember? prefixes
      mainByte := ← readMember? mainByte
      modRM := ← readMember? modRM
      imm8 := ← readMember? imm8
      length := ← readMember? length }

end X86Encoding
