import X86Encoding.Json.Table
import X86Encoding.Proofs.Json.Encoding

set_option autoImplicit false

namespace X86Encoding

open JsonForm

instance : Lawful OperandKind := lawful_ofNames (by rintro ⟨⟩ <;> decide) (by decide +kernel)

instance : Lawful OperandField := lawful_ofNames (by rintro ⟨⟩ <;> decide) (by decide +kernel)

instance : Lawful TupleType := lawful_ofNames (by rintro ⟨⟩ <;> decide) (by decide +kernel)

instance : Lawful Marker := lawful_ofNames (by rintro ⟨⟩ <;> decide) (by decide +kernel)

theorem Token.read?_obj {name : Text} (h : (name == "Misc".toList) = false) (b : UInt8) :
    read? (.obj [(name, write b)]) =
      [Token.byte b, .bytePlusRegister b, .bytePlusCondition b, .modRMReg b].find?
        (·.name == name) := by
  change (if name = "Misc".toList then do return .marker (← read? (write b)) else
    (read? (write b)).bind fun b : UInt8 =>
      [Token.byte b, .bytePlusRegister b, .bytePlusCondition b, .modRMReg b].find?
        (Token.name · == name)) = _
  rw [if_neg (ne_of_beq_false h), ReadsBack.read?_write]
  rfl

theorem Token.read?_str {t : Token} (h : t ∈ Token.vex :: plainKeywords) :
    read? (.str t.name) = some t := by
  have hname : ∀ t ∈ Token.vex :: plainKeywords,
      (Token.vex :: plainKeywords).find? (·.name == t.name) = some t := by
    decide +kernel
  exact hname t h

instance : Lawful Token where
  read?_write t := by
    cases t with
    | byte b | bytePlusRegister b | bytePlusCondition b | modRMReg b =>
      exact Token.read?_obj rfl b
    | marker m =>
      change (do return .marker (← read? (write m))) = some (Token.marker m)
      simp
    | _ => exact Token.read?_str (by decide)
  write_ne_null t := by cases t <;> exact nofun

instance : Lawful Code where
  read?_write c := by
    change (do return (⟨← read? (write c.tokens), ← read? (write c.vex)⟩ : Code)) = some c
    simp
  write_ne_null _ := nofun

instance : Lawful Operand where
  read?_write o := by
    change (do return (⟨← read? (write o.field), ← read? (write o.typeName),
      ← read? (write o.kind), ← read? (write o.relaxed), ← read? (write o.colon),
      ← read? (write o.flags)⟩ : Operand)) = some o
    simp
  write_ne_null _ := nofun

instance : Lawful Row where
  read?_write r := by
    change (do return (⟨← read? (write r.mnemonic), ← read? (write r.operands),
      ← read? (write r.code), ← read? (write r.tuple), ← read? (write r.flags)⟩ : Row)) = some r
    simp
  write_ne_null _ := nofun

instance : Lawful TableEntry where
  read?_write e := by
    change (do return (⟨← read? (write e.mnemonic), ← read? (write e.opcode)⟩ : TableEntry)) =
      some e
    simp
  write_ne_null _ := nofun

instance : Lawful OpcodeTable where
  read?_write t := by
    change (do return (⟨← read? (write t.entries)⟩ : OpcodeTable)) = some t
    simp
  write_ne_null _ := nofun

/-- A length is a number like any other, and has to be one that is read. -/
theorem Instruction.read?_write {d : Instruction} (h : d.length < 2 ^ 64) :
    read? (write d) = some d := by
  change (do return (⟨← read? (write d.mnemonic), ← read? (write d.opcode),
    ← read? (write d.prefixes), ← read? (write d.mainByte), ← read? (write d.modRM),
    ← read? (write d.imm8), ← readNat? (2 ^ 64) (.nat d.length)⟩ : Instruction)) = some d
  simp only [ReadsBack.read?_write, readNat?_nat h]
  rfl

end X86Encoding
