import X86Encoding.Proofs.Code.Immediates
import X86Encoding.Proofs.Code.Precedence

/-!
The mode and the immediates of an assembly are kept like accounts: no step looks at them, save to
see whether there is room for what its token asks. So a run comes down to a run without accounts,
and to sums over the tokens that do not depend on their order.
-/

set_option autoImplicit false

namespace X86Encoding.Assembly

variable {context : Code.Context} {a a' b b' : Assembly} {t : Token} {ts us : List Token}

def charge (x64 : Option Bool) (immediate : ImmediateSize) (a : Assembly) : Assembly :=
  { a with fields.x64 := x64, fields.immediate := immediate }

def bare (a : Assembly) : Assembly := a.charge none .zero

theorem charge_of_bare_eq (h : b.bare = a.bare) :
    b = a.charge b.fields.x64 b.fields.immediate := by
  have hcharge := congrArg (charge b.fields.x64 b.fields.immediate) h
  exact hcharge

theorem eq_of_bare_eq (h : b.bare = a.bare) (hx64 : b.fields.x64 = a.fields.x64)
    (himmediate : b.fields.immediate = a.fields.immediate) : b = a := by
  rw [charge_of_bare_eq h, hx64, himmediate]
  rfl

theorem ownBytes_of_bare_eq (h : b.bare = a.bare) : b.fields.ownBytes = a.fields.ownBytes := by
  rw [charge_of_bare_eq h]
  rfl

/-- There is room in the accounts for what the tokens ask, and for the bytes that belong to the
opcode at the end. -/
structure Affords (a : Assembly) (ts : List Token) (ownBytes : Nat) : Prop where
  x64 : ∃ m, (∀ m', a.fields.x64 = some m' → m' = m) ∧
    ∀ t ∈ ts, ∀ m', t.x64? = some m' → m' = m
  fixedBytes : a.fields.immediate.fixedBytes.toNat + Token.totalBytes ts + ownBytes ≤
    8 + a.fields.ownBytes
  varying : (a.fields.immediate.varying.toList ++ ts.filterMap Token.varying?).length ≤ 1

theorem Affords.perm {n : Nat} (h : a.Affords ts n) (hperm : ts.Perm us) : a.Affords us n where
  x64 := by
    obtain ⟨m, hknown, hasked⟩ := h.x64
    exact ⟨m, hknown, fun t ht => hasked t (hperm.mem_iff.2 ht)⟩
  fixedBytes := by
    rw [← Token.totalBytes_perm hperm]
    exact h.fixedBytes
  varying := by
    rw [((hperm.filterMap _).append_left _).length_eq.symm]
    exact h.varying

theorem Affords.of_cons {n : Nat} (h : a.Affords (t :: ts) n) (hadd : a.add context t = .ok b) :
    b.Affords ts n where
  x64 := by
    obtain ⟨m, hknown, hasked⟩ := h.x64
    refine ⟨m, fun m' hm' => ?_, fun u hu => hasked u (List.mem_cons_of_mem _ hu)⟩
    rw [(headStep_of_add hadd).x64, Option.or_eq_some_iff] at hm'
    rcases hm' with hm' | ⟨-, hm'⟩
    · exact hasked t List.mem_cons_self m' hm'
    · exact hknown m' hm'
  fixedBytes := by
    have hstep := (tailRun_of_add hadd).fixedBytes
    have hroom := h.fixedBytes
    grind
  varying := by
    have hroom := h.varying
    rw [(tailRun_of_add hadd).varying, List.append_assoc, ← List.filterMap_append]
    exact hroom

theorem Affords.head {n m : Nat} (h : a.Affords (t :: ts) n) (hm : m ≤ n) : a.Affords [t] m where
  x64 := by
    obtain ⟨m, hknown, hasked⟩ := h.x64
    exact ⟨m, hknown, fun u hu => hasked u (List.mem_singleton.1 hu ▸ List.mem_cons_self)⟩
  fixedBytes := by
    have hroom := h.fixedBytes
    grind
  varying := by
    have hroom := h.varying
    have hsub : ([t].filterMap Token.varying?).Sublist ((t :: ts).filterMap Token.varying?) :=
      List.Sublist.filterMap _ (List.singleton_sublist.2 List.mem_cons_self)
    exact Nat.le_trans (hsub.append_left _).length_le hroom

/-! ## One step with other accounts -/

section Charge

variable {x : Option Bool} {i : ImmediateSize}

theorem setSimd_charge {p : SimdPrefix} (h : a.setSimd p = .ok a') :
    (a.charge x i).setSimd p = .ok (a'.charge x i) := by
  obtain ⟨hfree, rfl⟩ := setSimd_eq_ok.1 h
  exact setSimd_eq_ok.2 ⟨hfree, rfl⟩

theorem setMap_charge {map : OpcodeMap} (h : a.setMap map = .ok a') :
    (a.charge x i).setMap map = .ok (a'.charge x i) := by
  obtain ⟨hfree, rfl⟩ := setMap_eq_ok.1 h
  exact setMap_eq_ok.2 ⟨hfree, rfl⟩

theorem setForm_charge {form : AddressingForm} (h : a.setForm form = .ok a') :
    (a.charge x i).setForm form = .ok (a'.charge x i) := by
  obtain ⟨hfree, rfl⟩ := setForm_eq_ok.1 h
  exact setForm_eq_ok.2 ⟨hfree, rfl⟩

theorem addByte_charge {v : UInt8} (h : a.addByte v = .ok a')
    (hroom : i.fixedBytes.toNat + a'.fields.ownBytes ≤ 8 + a.fields.ownBytes) :
    ∃ i', (a.charge x i).addByte v = .ok (a'.charge x i') := by
  have hseen : (a.charge x i).mainByteSeen = a.mainByteSeen := rfl
  have hmodRM : (a.charge x i).modRMSeen = a.modRMSeen := rfl
  have hlead : (a.charge x i).leadByte? v = a.leadByte? v := rfl
  have hvalue : (a.charge x i).fields.opcodeImmediate = a.fields.opcodeImmediate := rfl
  unfold addByte at h ⊢
  rw [hseen, hmodRM, hlead, hvalue]
  split at h
  · next hmain =>
    rw [if_pos hmain]
    split at h
    · exact ⟨i, setSimd_charge h⟩
    · exact ⟨i, setMap_charge h⟩
    · cases h
      exact ⟨i, rfl⟩
  · next hmain =>
    rw [if_neg hmain]
    split at h
    · next hform =>
      rw [if_pos hform]
      exact ⟨i, setForm_charge h⟩
    · next hform =>
      rw [if_neg hform]
      obtain ⟨hnone, h⟩ := ite_fail_eq_ok.1 h
      obtain ⟨-, rfl⟩ := addImmediate_eq_ok.1 h
      rw [if_neg hnone]
      have hown : a.fields.ownBytes = 0 := by
        rw [OpcodeFields.ownBytes, if_neg hnone]
      rw [hown] at hroom
      exact ⟨_, addImmediate_eq_ok.2 ⟨hroom, rfl⟩⟩

theorem addRegisterByte_charge {v : UInt8} (h : a.addRegisterByte v = .ok a') :
    (a.charge x i).addRegisterByte v = .ok (a'.charge x i) := by
  have hseen : (a.charge x i).mainByteSeen = a.mainByteSeen := rfl
  unfold addRegisterByte at h ⊢
  rw [hseen]
  split at h
  · next hmain =>
    rw [if_pos hmain]
    cases h
    rfl
  · next hmain =>
    rw [if_neg hmain]
    obtain ⟨hbyte, h⟩ := ite_fail_eq_ok.1 h
    rw [if_neg hbyte]
    exact setForm_charge h

theorem addConditionByte_charge {condition : Option Condition} {v : UInt8}
    (h : a.addConditionByte condition v = .ok a') :
    (a.charge x i).addConditionByte condition v = .ok (a'.charge x i) := by
  have hseen : (a.charge x i).mainByteSeen = a.mainByteSeen := rfl
  unfold addConditionByte at h ⊢
  rw [hseen]
  obtain ⟨hplace, h⟩ := ite_fail_eq_ok.1 h
  rw [if_neg hplace]
  cases condition with
  | none => cases h
  | some c =>
    cases h
    rfl

/-- Where there is room, a step goes the same way whatever the accounts hold. -/
theorem add_charge (h : a.add context t = .ok a')
    (hroom : (a.charge x i).Affords [t] a'.fields.ownBytes) :
    ∃ x' i', (a.charge x i).add context t = .ok (a'.charge x' i') := by
  have hmode : ∀ m, t.x64? = some m → x.all (· == m) = true := by
    intro m hm
    obtain ⟨m', hknown, hasked⟩ := hroom.x64
    rw [Option.all_eq_true]
    intro known hx
    exact beq_iff_eq.2 ((hknown known hx).trans (hasked t List.mem_cons_self m hm).symm)
  have hbytes : i.fixedBytes.toNat + t.immediateBytes.toNat + a'.fields.ownBytes ≤
      8 + a.fields.ownBytes := hroom.fixedBytes
  have hvarying : ∀ v, t.varying? = some v → i.varying = none := by
    intro v hv
    have hone : (i.varying.toList ++ [t].filterMap Token.varying?).length ≤ 1 := hroom.varying
    rw [List.filterMap_cons_some hv, List.length_append, List.length_cons] at hone
    rw [← Option.toList_eq_nil_iff, ← List.length_eq_zero_iff]
    omega
  cases t with
  | byte v =>
    obtain ⟨i', h⟩ := addByte_charge h hbytes
    exact ⟨x, i', h⟩
  | bytePlusRegister v => exact ⟨x, i, addRegisterByte_charge h⟩
  | bytePlusCondition v => exact ⟨x, i, addConditionByte_charge h⟩
  | modRMReg | modRM => exact ⟨x, i, setForm_charge h⟩
  | vex =>
    obtain ⟨hmain, h⟩ := ite_fail_eq_ok.1 h
    cases h
    exact ⟨x, i, if_neg hmain⟩
  | iwd | rel | iwdq =>
    obtain ⟨-, rfl⟩ := setVarying_eq_ok.1 h
    exact ⟨x, _, setVarying_eq_ok.2 ⟨hvarying _ rfl, rfl⟩⟩
  | is4 | ib | ibSigned | ibUnsigned | iw | id | idSigned | iq | rel8 | seg =>
    obtain ⟨-, rfl⟩ := addImmediate_eq_ok.1 h
    exact ⟨x, _, addImmediate_eq_ok.2 ⟨Nat.le_of_add_le_add_right hbytes, rfl⟩⟩
  | o16 | o32 | rexW | noRexW | a32 | operandDefault | addressDefault =>
    cases h
    exact ⟨x, i, rfl⟩
  | o64 | o64NoW | x64 | a64 =>
    obtain ⟨-, rfl⟩ := setMode_eq_ok.1 h
    exact ⟨_, i, setMode_eq_ok.2 ⟨hmode true rfl, rfl⟩⟩
  | ia32 | a16 =>
    obtain ⟨-, rfl⟩ := setMode_eq_ok.1 h
    exact ⟨_, i, setMode_eq_ok.2 ⟨hmode false rfl, rfl⟩⟩
  | noSimd => exact ⟨x, i, setSimd_charge h⟩
  | escape0F38 | escape0F3A => exact ⟨x, i, setMap_charge h⟩
  | marker m =>
    cases m with
    | f2i | f3i => exact ⟨x, i, setSimd_charge h⟩
    | _ =>
      cases h
      exact ⟨x, i, rfl⟩

end Charge

/-! ## Runs without accounts -/

/-- A run in which the accounts are emptied before every token. -/
def addAllBare (context : Code.Context) (a : Assembly) : List Token → Step
  | [] => .ok a.bare
  | t :: rest =>
    match a.bare.add context t with
    | .error e => .error e
    | .ok b => b.addAllBare context rest

theorem addAllBare_charge (x : Option Bool) (i : ImmediateSize) :
    (a.charge x i).addAllBare context ts = a.addAllBare context ts := by
  cases ts <;> rfl

theorem addAllBare_cons_eq_ok {k : Assembly} :
    a.addAllBare context (t :: ts) = .ok k ↔
      ∃ b, a.bare.add context t = .ok b ∧ b.addAllBare context ts = .ok k := by
  rw [addAllBare]
  cases a.bare.add context t with
  | error e => simp only [reduceCtorEq, false_and, exists_false]
  | ok b => simp only [Except.ok.injEq, exists_eq_left']

theorem ownBytes_le_of_addAllBare {k : Assembly} (h : a.addAllBare context ts = .ok k) :
    a.fields.ownBytes ≤ k.fields.ownBytes := by
  induction ts generalizing a with
  | nil =>
    cases h
    exact Nat.le_refl _
  | cons t ts ih =>
    obtain ⟨b, hadd, h⟩ := addAllBare_cons_eq_ok.1 h
    exact Nat.le_trans (tailRun_of_add hadd).ownBytes_le (ih h)

theorem bare_affords (h : a.add context t = .ok a')
    (ha : a.fields.immediate.fixedBytes.toNat ≤ 8) : a.bare.Affords [t] a'.fields.ownBytes where
  x64 := by
    refine ⟨t.x64?.getD true, nofun, fun u hu m hm => ?_⟩
    rw [← List.mem_singleton.1 hu, hm, Option.getD_some]
  fixedBytes := by
    have hstep := tailRun_of_add h
    have hbytes := hstep.fixedBytes
    have hle := hstep.fixedBytes_le ha
    have hzero : a.bare.fields.immediate.fixedBytes.toNat = 0 := rfl
    have hown : a.bare.fields.ownBytes = a.fields.ownBytes := rfl
    omega
  varying := List.length_filterMap_le Token.varying? [t]

theorem addAllBare_of_addAll (h : a.addAll context ts = .ok a')
    (ha : a.fields.immediate.fixedBytes.toNat ≤ 8) : a.addAllBare context ts = .ok a'.bare := by
  induction ts generalizing a with
  | nil =>
    cases h
    rfl
  | cons t ts ih =>
    obtain ⟨b, hb, h⟩ := addAll_cons_eq_ok.1 h
    obtain ⟨x, i, hbare⟩ := add_charge hb (bare_affords hb ha)
    refine addAllBare_cons_eq_ok.2 ⟨_, hbare, ?_⟩
    rw [addAllBare_charge]
    exact ih h ((tailRun_of_add hb).fixedBytes_le ha)

theorem addAll_of_addAllBare {k : Assembly} (h : a.addAllBare context ts = .ok k)
    (hroom : a.Affords ts k.fields.ownBytes) : ∃ a', a.addAll context ts = .ok a' := by
  induction ts generalizing a with
  | nil => exact ⟨a, rfl⟩
  | cons t ts ih =>
    obtain ⟨b, hb, h⟩ := addAllBare_cons_eq_ok.1 h
    -- the same step with the accounts that there are
    obtain ⟨x, i, hadd⟩ : ∃ x i, a.add context t = .ok (b.charge x i) :=
      add_charge (a := a.bare) hb (hroom.head (ownBytes_le_of_addAllBare h))
    rw [← addAllBare_charge x i] at h
    obtain ⟨a', hrun⟩ := ih h (hroom.of_cons hadd)
    exact ⟨a', addAll_cons_eq_ok.2 ⟨_, hadd, hrun⟩⟩

/-! ## What a run does to the accounts -/

theorem x64_of_addAll (h : a.addAll context ts = .ok a') (m : Bool) :
    a'.fields.x64 = some m ↔ a.fields.x64 = some m ∨ ∃ t ∈ ts, t.x64? = some m := by
  induction ts generalizing a with
  | nil =>
    cases h
    simp
  | cons t ts ih =>
    obtain ⟨b, hb, h⟩ := addAll_cons_eq_ok.1 h
    have hstep := headStep_of_add hb
    -- a token asks for the mode that is known, or there is none yet
    have hfirst : b.fields.x64 = some m ↔ a.fields.x64 = some m ∨ t.x64? = some m := by
      refine ⟨fun hm => ?_, fun hm => ?_⟩
      · rw [hstep.x64, Option.or_eq_some_iff] at hm
        exact hm.symm.imp_left And.right
      · rcases hm with hm | hm
        · exact hstep.x64_keep hm
        · rw [hstep.x64, hm, Option.some_or]
    simp only [ih h, hfirst, or_assoc, List.mem_cons, or_and_right, exists_or, exists_eq_left]

theorem affords_of_addAll (h : a.addAll context ts = .ok a')
    (ha : a.fields.immediate.fixedBytes.toNat ≤ 8) : a.Affords ts a'.fields.ownBytes where
  x64 := by
    have hmode := x64_of_addAll h
    refine ⟨a'.fields.x64.getD true, fun m hm => ?_, fun t ht m hm => ?_⟩
    · rw [(hmode m).2 (.inl hm), Option.getD_some]
    · rw [(hmode m).2 (.inr ⟨t, ht, hm⟩), Option.getD_some]
  fixedBytes := by
    have hbytes := (tailRun_of_addAll h).fixedBytes
    have hle := (tailRun_of_addAll h).fixedBytes_le ha
    omega
  varying := by
    rw [← (tailRun_of_addAll h).varying]
    exact Option.length_toList_le

theorem immediate_eq_of_perm {a₁ b₁ : Assembly} (ha : a.addAll context ts = .ok a₁)
    (hb : b.addAll context us = .ok b₁) (hstart : b.fields.immediate = a.fields.immediate)
    (hbare : b.bare = a.bare) (hperm : ts.Perm us) (hbare₁ : b₁.bare = a₁.bare) :
    b₁.fields.immediate = a₁.fields.immediate := by
  have hrun_a := tailRun_of_addAll ha
  have hrun_b := tailRun_of_addAll hb
  have hown := ownBytes_of_bare_eq hbare
  have hown₁ := ownBytes_of_bare_eq hbare₁
  have htotal := Token.totalBytes_perm hperm
  have hfixed : b₁.fields.immediate.fixedBytes = a₁.fields.immediate.fixedBytes := by
    have hbytes_a := hrun_a.fixedBytes
    have hbytes_b := hrun_b.fixedBytes
    rw [hstart] at hbytes_b
    exact UInt8.toNat_inj.1 (by omega)
  have hvarying : b₁.fields.immediate.varying = a₁.fields.immediate.varying := by
    have hasked := (hperm.filterMap Token.varying?).append_left a.fields.immediate.varying.toList
    rw [← hrun_a.varying, ← hstart, ← hrun_b.varying] at hasked
    exact Option.ext fun v => by rw [← Option.mem_toList, ← Option.mem_toList, hasked.mem_iff]
  show ImmediateSize.mk _ _ = ImmediateSize.mk _ _
  rw [hfixed, hvarying]

theorem eq_of_perm {a₁ a₂ : Assembly} (h₁ : a.addAll context ts = .ok a₁)
    (h₂ : a.addAll context us = .ok a₂) (hperm : ts.Perm us) (hbare : a₂.bare = a₁.bare) :
    a₂ = a₁ := by
  refine eq_of_bare_eq hbare (Option.ext fun m => ?_)
    (immediate_eq_of_perm h₁ h₂ rfl rfl hperm hbare)
  rw [x64_of_addAll h₁, x64_of_addAll h₂]
  simp only [hperm.mem_iff]

/-- Runs that are the same without accounts are the same with them, as long as the same is asked. -/
theorem addAll_of_perm (h : a.addAll context ts = .ok a')
    (ha : a.fields.immediate.fixedBytes.toNat ≤ 8) (hperm : ts.Perm us)
    (hbare : a.addAllBare context us = a.addAllBare context ts) :
    a.addAll context us = .ok a' := by
  have hrun := hbare.trans (addAllBare_of_addAll h ha)
  obtain ⟨b, hb⟩ := addAll_of_addAllBare hrun ((affords_of_addAll h ha).perm hperm)
  have hsame : b.bare = a'.bare :=
    Except.ok.inj ((addAllBare_of_addAll hb ha).symm.trans hrun)
  rw [hb, eq_of_perm h hb hperm hsame]

end X86Encoding.Assembly
