import X86Encoding.Code.Assembly

set_option autoImplicit false

namespace X86Encoding

namespace Assembly

variable {context : Code.Context} {a a' : Assembly}

theorem addAll_append_eq (ts us : List Token) :
    a.addAll context (ts ++ us) = (a.addAll context ts).bind fun b => b.addAll context us := by
  induction ts generalizing a with
  | nil => rfl
  | cons t ts ih =>
    simp only [addAll, List.cons_append]
    cases a.add context t with
    | error e => rfl
    | ok b => exact ih

theorem addAll_append {ts us : List Token} (h : a.addAll context ts = .ok a') :
    a.addAll context (ts ++ us) = a'.addAll context us := by
  rw [addAll_append_eq, h]
  rfl

@[simp] theorem addAll_singleton (t : Token) : a.addAll context [t] = a.add context t := by
  simp only [addAll]
  split <;> simp_all

theorem addAll_cons_eq_ok {t : Token} {ts : List Token} :
    a.addAll context (t :: ts) = .ok a' ↔
      ∃ b, a.add context t = .ok b ∧ b.addAll context ts = .ok a' := by
  rw [addAll]
  cases a.add context t with
  | error e => simp only [reduceCtorEq, false_and, exists_false]
  | ok b => simp only [Except.ok.injEq, exists_eq_left']

theorem addAll_preserves {P : Assembly → Prop}
    (hstep : ∀ a t a', P a → a.add context t = .ok a' → P a') {ts : List Token} (ha : P a)
    (h : a.addAll context ts = .ok a') : P a' := by
  induction ts generalizing a with
  | nil =>
    cases h
    exact ha
  | cons t ts ih =>
    obtain ⟨b, hb, h⟩ := addAll_cons_eq_ok.1 h
    exact ih (hstep a t b ha hb) h

/-- A run in another context, from another state: where each step changes with the state in the
same way, so does the whole run. -/
theorem addAll_map {context' : Code.Context} {φ : Assembly → Assembly} {P : Assembly → Prop}
    {ts : List Token}
    (hstep : ∀ a, P a → ∀ t ∈ ts, (φ a).add context' t = (a.add context t).map φ)
    (hkeep : ∀ a t a', P a → a.add context t = .ok a' → P a') (ha : P a) :
    (φ a).addAll context' ts = (a.addAll context ts).map φ := by
  induction ts generalizing a with
  | nil => rfl
  | cons t ts ih =>
    rw [addAll, addAll, hstep a ha t List.mem_cons_self]
    cases hadd : a.add context t with
    | error e => rfl
    | ok b =>
      exact ih (fun a ha t ht => hstep a ha t (List.mem_cons_of_mem _ ht)) (hkeep a t b ha hadd)

theorem addAll_congr {context' : Code.Context} {ts : List Token}
    (h : ∀ a : Assembly, ∀ t ∈ ts, a.add context' t = a.add context t) :
    a.addAll context' ts = a.addAll context ts := by
  have hmap := addAll_map (a := a) (φ := id) (P := fun _ => True)
    (fun a _ t ht => by rw [Except.map_id]; exact h a t ht) (fun _ _ _ _ _ => trivial) trivial
  rw [Except.map_id] at hmap
  exact hmap

@[simp] theorem ite_fail_eq_ok {p : Prop} [Decidable p] {fault : FormatFault} {s : Step} :
    (if p then fail fault else s) = .ok a' ↔ ¬p ∧ s = .ok a' := by
  by_cases h : p <;> simp [h, fail]

theorem setMode_eq_ok {x64 : Bool} : a.setMode x64 = .ok a' ↔
    a.fields.x64.all (· == x64) = true ∧ { a with fields.x64 := some x64 } = a' := by
  unfold setMode fail
  split <;> simp_all

theorem setSimd_eq_ok {p : SimdPrefix} : a.setSimd p = .ok a' ↔
    (a.fields.kind = none ∧ a.mainByteSeen = false ∧ a.fields.simd = none) ∧
      { a with fields.simd := some p } = a' := by
  simp [setSimd, and_assoc]

theorem setMap_eq_ok {map : OpcodeMap} : a.setMap map = .ok a' ↔
    (a.fields.kind = none ∧ a.mainByteSeen = false) ∧ { a with fields.map := map } = a' := by
  simp [setMap]

theorem setForm_eq_ok {form : AddressingForm} : a.setForm form = .ok a' ↔
    (a.mainByteSeen = true ∧ a.modRMSeen = false) ∧
      { a with fields.form := form, modRMSeen := true } = a' := by
  simp [setForm, and_assoc]

theorem addImmediate_eq_ok {n : UInt8} : a.addImmediate n = .ok a' ↔
    a.fields.immediate.fixedBytes.toNat + n.toNat ≤ 8 ∧
      { a with fields.immediate.fixedBytes := a.fields.immediate.fixedBytes + n } = a' := by
  simp [addImmediate]

theorem setVarying_eq_ok {v : VariableImmediate} : a.setVarying v = .ok a' ↔
    a.fields.immediate.varying = none ∧ { a with fields.immediate.varying := some v } = a' := by
  simp [setVarying]

/-- The steps, by what they change. Every one says what it needs. -/
inductive Change (context : Code.Context) (a : Assembly) : Assembly → Prop
  | keep : Change context a a
  | sizes (x64 : Option Bool) (r : OperandSizeRule) (s : Option AddressSize) :
    Change context a { a with fields.x64 := x64, fields.operandSize := r, fields.addressSize := s }
  | simd (p : SimdPrefix) (hkind : a.fields.kind = none) (hmain : a.mainByteSeen = false)
      (hsimd : a.fields.simd = none) :
    Change context a { a with fields.simd := some p }
  | map (map : OpcodeMap) (hkind : a.fields.kind = none) (hmain : a.mainByteSeen = false) :
    Change context a { a with fields.map := map }
  | mainByte (b : UInt8) (hmain : a.mainByteSeen = false) (hlead : a.leadByte? b = none) :
    Change context a (a.setMainByte b)
  | mainRegister (b : UInt8) (hmain : a.mainByteSeen = false) :
    Change context a { a.setMainByte b with fields.form := .mainByteReg, modRMSeen := true }
  | mainCondition (b : UInt8) (c : Condition) (hmain : a.mainByteSeen = false)
      (hcondition : context.condition = some c) :
    Change context a (a.setMainByte (b ||| c.code))
  | form (form : AddressingForm) (hmain : a.mainByteSeen = true) (hfree : a.modRMSeen = false)
      (hform : form.hasModRM = true)
      (hmemory : ∀ reg, form = .regMemoryRM reg → context.rmKind = some .memory) :
    Change context a { a with fields.form := form, modRMSeen := true }
  | immediate (n : UInt8) (hsize : a.fields.immediate.fixedBytes.toNat + n.toNat ≤ 8) :
    Change context a
      { a with fields.immediate.fixedBytes := a.fields.immediate.fixedBytes + n }
  | varying (v : VariableImmediate) (hnone : a.fields.immediate.varying = none) :
    Change context a { a with fields.immediate.varying := some v }
  | opcodeImmediate (b : UInt8) (hmain : a.mainByteSeen = true)
      (hbyte : a.modRMSeen = true ∨ b < 0xC0) (hnone : a.fields.opcodeImmediate = none)
      (hsize : a.fields.immediate.fixedBytes.toNat + 1 ≤ 8) :
    Change context a
      { a with
        fields.opcodeImmediate := some b
        fields.immediate.fixedBytes := a.fields.immediate.fixedBytes + 1 }

theorem change_of_setMode {x64 : Bool} (r : OperandSizeRule) (s : Option AddressSize)
    (h : { a with fields.operandSize := r, fields.addressSize := s }.setMode x64 = .ok a') :
    Change context a a' := by
  obtain ⟨-, rfl⟩ := setMode_eq_ok.1 h
  exact .sizes (some x64) r s

theorem change_of_setSimd {p : SimdPrefix} (h : a.setSimd p = .ok a') : Change context a a' := by
  obtain ⟨⟨hkind, hmain, hsimd⟩, rfl⟩ := setSimd_eq_ok.1 h
  exact .simd p hkind hmain hsimd

theorem change_of_setMap {map : OpcodeMap} (h : a.setMap map = .ok a') : Change context a a' := by
  obtain ⟨⟨hkind, hmain⟩, rfl⟩ := setMap_eq_ok.1 h
  exact .map map hkind hmain

theorem change_of_setForm {form : AddressingForm} (hform : form.hasModRM = true)
    (hmemory : ∀ reg, form = .regMemoryRM reg → context.rmKind = some .memory)
    (h : a.setForm form = .ok a') : Change context a a' := by
  obtain ⟨⟨hmain, hfree⟩, rfl⟩ := setForm_eq_ok.1 h
  exact .form form hmain hfree hform hmemory

theorem change_of_addImmediate {n : UInt8} (h : a.addImmediate n = .ok a') :
    Change context a a' := by
  obtain ⟨hsize, rfl⟩ := addImmediate_eq_ok.1 h
  exact .immediate n hsize

theorem change_of_setVarying {v : VariableImmediate} (h : a.setVarying v = .ok a') :
    Change context a a' := by
  obtain ⟨hnone, rfl⟩ := setVarying_eq_ok.1 h
  exact .varying v hnone

theorem change_of_addByte {b : UInt8} (h : a.addByte b = .ok a') : Change context a a' := by
  unfold addByte at h
  split at h
  · next hmain =>
    split at h
    · exact change_of_setSimd h
    · exact change_of_setMap h
    · next hlead =>
      cases h
      exact .mainByte b (by simpa using hmain) hlead
  · next hmain =>
    split at h
    · exact change_of_setForm rfl (fun _ h => by cases h) h
    · next hvalue =>
      obtain ⟨hnone, h⟩ := ite_fail_eq_ok.1 h
      obtain ⟨hsize, rfl⟩ := addImmediate_eq_ok.1 h
      refine .opcodeImmediate b (by simpa using hmain) ?_ (by simpa using hnone) hsize
      simp only [Bool.and_eq_true, Bool.not_eq_true', decide_eq_true_eq] at hvalue
      grind

theorem change_of_addRegisterByte {b : UInt8} (h : a.addRegisterByte b = .ok a') :
    Change context a a' := by
  unfold addRegisterByte at h
  split at h
  · next hmain =>
    cases h
    exact .mainRegister b (by simpa using hmain)
  · split at h
    · cases h
    · exact change_of_setForm rfl (fun _ h => by cases h) h

theorem change_of_addConditionByte {b : UInt8}
    (h : a.addConditionByte context.condition b = .ok a') : Change context a a' := by
  unfold addConditionByte at h
  split at h
  · cases h
  · next hmain =>
    split at h
    · cases h
    · next c hcondition =>
      cases h
      exact .mainCondition b c (by grind) hcondition

@[simp] theorem hasModRM_regForm (kind : Option OperandKind) (reg : UInt8) :
    (regForm kind reg).hasModRM = true := by
  unfold regForm
  split <;> rfl

theorem rmKind_of_regForm {kind : Option OperandKind} {reg reg' : UInt8}
    (h : regForm kind reg = .regMemoryRM reg') : kind = some .memory := by
  unfold regForm at h
  split at h
  · rfl
  · cases h
  · cases h

theorem change_of_add {t : Token} (h : a.add context t = .ok a') : Change context a a' := by
  cases t with
  | byte b => exact change_of_addByte h
  | bytePlusRegister b => exact change_of_addRegisterByte h
  | bytePlusCondition b => exact change_of_addConditionByte h
  | modRMReg reg =>
    exact change_of_setForm (hasModRM_regForm _ _) (fun _ h => rmKind_of_regForm h) h
  | modRM => exact change_of_setForm rfl (fun _ h => by cases h) h
  | vex =>
    simp only [add] at h
    split at h <;> cases h
    exact .keep
  | iwd | iwdq | rel => exact change_of_setVarying h
  | is4 | ib | ibSigned | ibUnsigned | iw | id | idSigned | iq | rel8 | seg =>
    exact change_of_addImmediate h
  | o16 | o32 | rexW | noRexW | a32 =>
    cases h
    exact .sizes _ _ _
  | o64 | o64NoW | x64 | ia32 | a16 | a64 => exact change_of_setMode _ _ h
  | operandDefault | addressDefault =>
    cases h
    exact .keep
  | noSimd => exact change_of_setSimd h
  | escape0F38 | escape0F3A => exact change_of_setMap h
  | marker m =>
    cases m with
    | f2i | f3i => exact change_of_setSimd h
    | _ =>
      cases h
      exact .keep

end Assembly

namespace Code

variable {c : Code} {context : Context} {d : OpcodeDescriptor}

theorem compile_eq_ok_iff : c.compile context = .ok d ↔
    ∃ a, (Assembly.start context c.vex).addAll context c.tokens = .ok a ∧
      a.mainByteSeen = true ∧ OpcodeDescriptor.make a.fields = .ok d := by
  rw [compile]
  cases (Assembly.start context c.vex).addAll context c.tokens with
  | error e => simp only [reduceCtorEq, false_and, exists_false]
  | ok a =>
    simp only [Except.ok.injEq, exists_eq_left']
    cases a.mainByteSeen <;> simp

theorem assembly_of_compile (h : c.compile context = .ok d) :
    ∃ a, (Assembly.start context c.vex).addAll context c.tokens = .ok a ∧
      a.mainByteSeen = true ∧ d.fields = a.fields := by
  obtain ⟨a, hrun, hseen, hmake⟩ := compile_eq_ok_iff.1 h
  exact ⟨a, hrun, hseen, Checked.fields_of_make hmake⟩

end Code
end X86Encoding
