import X86Encoding.Opcode.Descriptor

set_option autoImplicit false

namespace X86Encoding

theorem VexFields.fault?_eq_none_iff {f : VexFields} :
    f.fault? = none ↔ f.map ≠ .primary ∧ (f.kind == .xop) = f.map.isXop ∧
      (f.vectorSize = some .v512 → f.kind = .evex) := by
  rw [fault?, firstFault?_eq_none_iff]
  simp only [rules, List.forall_mem_cons, List.not_mem_nil, false_imp_iff, implies_true, and_true,
    bne_iff_ne, beq_iff_eq, Bool.or_eq_true, ne_eq, Classical.or_iff_not_imp_left,
    Classical.not_not]

namespace VexDescriptor

@[simp] theorem map_ne_primary (v : VexDescriptor) : v.fields.map ≠ .primary :=
  (VexFields.fault?_eq_none_iff.1 v.consistent).1

end VexDescriptor

namespace OpcodeFields

/-- The rules as a reader would say them. -/
structure IsConsistent (f : OpcodeFields) : Prop where
  x64_of_a64 : f.addressSize = some .a64 → f.x64 = some true
  x64_of_a16 : f.addressSize = some .a16 → f.x64 = some false
  x64_of_promotion : f.operandSize = .promotion → f.kind = none → f.x64 = some true
  isVexCompatible : f.kind ≠ none → f.operandSize.isVexCompatible = true
  simd_ne_none : f.kind ≠ none → f.simd ≠ none
  vectorSize_eq_none : f.kind = none → f.vectorSize = none
  isXop_eq_false : f.kind = none → f.map.isXop = false
  mainByte_and : f.form = .mainByteReg → f.mainByte &&& 7 = 0
  fixedReg_le : ∀ reg, f.form.fixedReg? = some reg → reg ≤ 7
  isDirectValue : OpcodeFields.isDirectValue f.form = true
  immediate_fixed : f.opcodeImmediate ≠ none → f.immediate.fixed? = some 1
  vexFields : ∀ v, f.vexFields? = some v → v.fault? = none

theorem fault?_eq_none_iff {f : OpcodeFields} : f.fault? = none ↔ f.IsConsistent := by
  rw [fault?, firstFault?_eq_none_iff]
  have hvex : (∀ r ∈ (f.vexFields?.map VexFields.rules).getD [], r.1 = true) ↔
      ∀ v, f.vexFields? = some v → v.fault? = none := by
    cases f.vexFields? with
    | none => simp
    | some v => simp [VexFields.fault?]
  simp only [rules, List.cons_append, List.nil_append, List.forall_mem_cons, hvex,
    Bool.or_eq_true, bne_iff_ne, beq_iff_eq, Option.isSome_iff_ne_none,
    Option.isNone_iff_eq_none, Bool.not_eq_true', Option.all_eq_true, decide_eq_true_eq]
  constructor
  · rintro ⟨h1, h2, h3, h4, h5, h6, h7, h8, h9, h10, h11, h12⟩
    constructor <;> grind
  · rintro ⟨h1, h2, h3, h4, h5, h6, h7, h8, h9, h10, h11, h12⟩
    grind

end OpcodeFields

theorem AddressingForm.mainByteMask_of_ne {form : AddressingForm} (h : form ≠ .mainByteReg) :
    form.mainByteMask = -1 := by
  unfold mainByteMask
  split
  · next => exact absurd rfl h
  · rfl

namespace OpcodeDescriptor

variable (d : OpcodeDescriptor)

theorem isConsistent : d.fields.IsConsistent := OpcodeFields.fault?_eq_none_iff.1 d.consistent

theorem vex_of_kind_eq_none (h : d.fields.kind = none) :
    d.vex = .error (.invalidOperation .legacyEncoding) := by
  simp only [vex, OpcodeFields.vexFields?, h, Option.map_none]

theorem vex_of_kind_eq_some {kind : VexKind} (h : d.fields.kind = some kind) :
    ∃ v, d.vex = .ok v ∧ v.fields = ⟨kind, none, d.fields.vectorSize, d.fields.simd.getD .np,
      d.fields.map, d.fields.operandSize.promotion?⟩ := by
  have hfields : d.fields.vexFields? = some ⟨kind, none, d.fields.vectorSize,
      d.fields.simd.getD .np, d.fields.map, d.fields.operandSize.promotion?⟩ := by
    rw [OpcodeFields.vexFields?, h, Option.map_some]
  refine ⟨⟨_, d.isConsistent.vexFields _ hfields⟩, ?_, rfl⟩
  simp only [vex, hfields, Checked.make_of_fault (d.isConsistent.vexFields _ hfields)]

end OpcodeDescriptor
end X86Encoding
