import Mathlib.Data.List.Basic
import X86Encoding.Proofs.Code.Contexts
import X86Encoding.Row.Basic

/-!
How a row expands. A row with a condition byte is compiled for each of the sixteen conditions, and
either for none of them or for all: the descriptors then differ in the low bits of the main byte
only, so that no instruction belongs to two of them.
-/

set_option autoImplicit false

namespace X86Encoding

namespace Condition

theorem getElem?_all (c : Condition) : all[c.code.toNat]? = some c := by cases c <;> rfl

theorem toNat_code_of_getElem? {i : Nat} {c : Condition} (h : all[i]? = some c) :
    c.code.toNat = i := by
  have hrange : (List.range 16)[i]? = some c.code.toNat := by
    have hcodes : all.map (·.code.toNat) = List.range 16 := rfl
    rw [← hcodes, List.getElem?_map, h, Option.map_some]
  obtain ⟨hi, hcode⟩ := List.getElem?_eq_some_iff.1 hrange
  exact hcode.symm.trans (List.getElem_range _)

end Condition

namespace Row

def conditionsOf (code : Code) : List (Option Condition) :=
  if code.tokens.any isConditionToken then Condition.all.map some else [none]

theorem any_isConditionToken_iff {ts : List Token} :
    ts.any isConditionToken = true ↔ ∃ b, .bytePlusCondition b ∈ ts := by
  rw [List.any_eq_true]
  constructor
  · rintro ⟨t, ht, hcondition⟩
    cases t with
    | bytePlusCondition b => exact ⟨b, ht⟩
    | _ => cases hcondition
  · rintro ⟨b, hb⟩
    exact ⟨_, hb, rfl⟩

/-- Rows with and without a condition byte, compiled in one way. -/
theorem opcodes_eq {r : Row} {code : Code} (h : r.code = some code) :
    r.opcodes = (conditionsOf code).mapM fun c =>
      (code.compile (r.context c)).map fun d =>
        (c.elim (Text.lower r.mnemonic) r.conditionMnemonic, d) := by
  simp only [opcodes, h, conditionsOf]
  split
  · rw [List.mapM_map]
    refine congrArg (Condition.all.mapM ·) (funext fun c => ?_)
    simp only [Function.comp_apply]
    cases code.compile (r.context (some c)) <;> rfl
  · rw [List.mapM_cons, List.mapM_nil]
    cases code.compile (r.context none) <;> rfl

theorem mapM_error_iff {α β : Type} {f : α → Except EncodingError β} {xs : List α} :
    (∃ e, xs.mapM f = .error e) ↔ ∃ x ∈ xs, ∃ e, f x = .error e := by
  induction xs with
  | nil => exact ⟨fun ⟨_, h⟩ => (nomatch h), fun ⟨_, h, _⟩ => (nomatch h)⟩
  | cons x xs ih =>
    rw [List.mapM_cons]
    simp only [List.mem_cons, or_and_right, exists_or, exists_eq_left, ← ih]
    cases f x with
    | error e => exact ⟨fun _ => .inl ⟨e, rfl⟩, fun _ => ⟨e, rfl⟩⟩
    | ok y =>
      cases xs.mapM f with
      | error e => exact ⟨fun _ => .inr ⟨e, rfl⟩, fun _ => ⟨e, rfl⟩⟩
      | ok ys => exact ⟨fun ⟨_, h⟩ => (nomatch h), fun h => by
          rcases h with ⟨_, h⟩ | ⟨_, h⟩ <;> cases h⟩

theorem mapM_eq_ok_map {α β : Type} {f : α → Except EncodingError β} {g : α → β} {xs : List α}
    (h : ∀ x ∈ xs, f x = .ok (g x)) : xs.mapM f = .ok (xs.map g) := by
  induction xs with
  | nil => rfl
  | cons x xs ih =>
    rw [List.mapM_cons, h x List.mem_cons_self, ih fun y hy => h y (List.mem_cons_of_mem x hy)]
    rfl

theorem opcodes_error_iff {r : Row} {code : Code} (h : r.code = some code) :
    (∃ e, r.opcodes = .error e) ↔
      ∃ c ∈ conditionsOf code, ∃ e, code.compile (r.context c) = .error e := by
  rw [opcodes_eq h, mapM_error_iff]
  refine exists_congr fun c => and_congr_right fun _ => exists_congr fun e => ?_
  cases code.compile (r.context c) <;> simp [Except.map]

/-- The mnemonic with the ending of the condition for a final `cc`, or behind the whole of it. -/
def IsConditionMnemonic (r : Row) (c : Condition) (t : Text) : Prop :=
  (∃ base, Text.lower r.mnemonic = base ++ "cc".toList ∧ t = base ++ c.ending) ∨
  ¬("cc".toList <:+ Text.lower r.mnemonic) ∧ t = Text.lower r.mnemonic ++ c.ending

theorem isConditionMnemonic (r : Row) (c : Condition) :
    r.IsConditionMnemonic c (r.conditionMnemonic c) := by
  unfold conditionMnemonic
  dsimp only
  cases hbase : "cc".toList.isSuffixOf? (Text.lower r.mnemonic) with
  | some base =>
    exact .inl ⟨base, (List.isSuffixOf?_eq_some_iff_append_eq.1 hbase).symm, rfl⟩
  | none =>
    refine .inr ⟨?_, rfl⟩
    rintro ⟨base, h⟩
    cases hbase.symm.trans (List.isSuffixOf?_eq_some_iff_append_eq.2 h)

/-- The entries of a row with a condition byte: one for each condition, in the order of the codes,
which are added to a main byte that has room for them. All else is the same, and what one entry
accepts is not accepted by another. -/
structure Expands (r : Row) (f : OpcodeFields) (pairs : List (Text × OpcodeDescriptor)) :
    Prop where
  length : pairs.length = 16
  mainByte : f.mainByte &&& 0x0F = 0
  entry : ∀ c : Condition, ∃ t d, pairs[c.code.toNat]? = some (t, d) ∧
    r.IsConditionMnemonic c t ∧ d.fields = { f with mainByte := f.mainByte + c.code }
  apart : ∀ (i j : Nat) (p q : Text × OpcodeDescriptor) s mainByte modRM imm8,
    pairs[i]? = some p → pairs[j]? = some q → p.2.accepts s mainByte modRM imm8 = true →
      q.2.accepts s mainByte modRM imm8 = true → i = j

theorem expands_map {r : Row} {f : OpcodeFields} {d : Condition → OpcodeDescriptor}
    (hmain : f.mainByte &&& 0x0F = 0) (hform : f.form ≠ .mainByteReg)
    (hd : ∀ c, (d c).fields = { f with mainByte := f.mainByte + c.code }) :
    r.Expands f (Condition.all.map fun c => (r.conditionMnemonic c, d c)) where
  length := rfl
  mainByte := hmain
  entry c := ⟨_, _, by rw [List.getElem?_map, c.getElem?_all, Option.map_some],
    r.isConditionMnemonic c, hd c⟩
  apart i j p q s mainByte modRM imm8 hp hq hpa hqa := by
    rw [List.getElem?_map, Option.map_eq_some_iff] at hp hq
    obtain ⟨c, hc, rfl⟩ := hp
    obtain ⟨c', hc', rfl⟩ := hq
    have hbyte := OpcodeDescriptor.mainByte_eq_of_accepts (by rwa [hd]) hpa
    have hbyte' := OpcodeDescriptor.mainByte_eq_of_accepts (by rwa [hd]) hqa
    rw [hd] at hbyte hbyte'
    have hcode : c.code = c'.code := (UInt8.add_right_inj _).1 (hbyte.symm.trans hbyte')
    rw [← Condition.toNat_code_of_getElem? hc, ← Condition.toNat_code_of_getElem? hc', hcode]

/-- A row with a condition byte is compiled for all conditions or for none; it expands to sixteen
entries, and any other row to one. -/
theorem opcodes_conditions {r : Row} {code : Code} (h : r.code = some code) :
    ((∃ b, .bytePlusCondition b ∈ code.tokens) →
      (∀ c c', (∃ d, code.compile (r.context (some c)) = .ok d) ↔
        ∃ d, code.compile (r.context (some c')) = .ok d) ∧
      ((∃ e, r.opcodes = .error e) ∨ ∃ pairs f, r.opcodes = .ok pairs ∧ r.Expands f pairs)) ∧
    ((∀ b, .bytePlusCondition b ∉ code.tokens) →
      (∃ e, r.opcodes = .error e) ∨ ∃ p, r.opcodes = .ok [p]) := by
  constructor
  · intro hmem
    have hconditions : conditionsOf code = Condition.all.map some :=
      if_pos (any_isConditionToken_iff.2 hmem)
    obtain ⟨e, he⟩ | ⟨f, hmain, hform, hf⟩ := Code.compile_condition_cases (r.context none) hmem
    · have hfail : ∀ c, code.compile (r.context (some c)) = .error e := he
      refine ⟨fun c c' => by simp only [hfail, reduceCtorEq], .inl ?_⟩
      exact (opcodes_error_iff h).2 ⟨some .overflow, by rw [hconditions]; decide, e, he .overflow⟩
    · obtain ⟨d, hd⟩ := Classical.skolem.1 hf
      have hok : ∀ c, code.compile (r.context (some c)) = .ok (d c) := fun c => (hd c).1
      refine ⟨fun c c' => ⟨fun _ => ⟨_, hok c'⟩, fun _ => ⟨_, hok c⟩⟩, .inr ⟨_, f, ?_,
        expands_map hmain hform fun c => (hd c).2⟩⟩
      rw [opcodes_eq h, hconditions, List.mapM_map]
      refine mapM_eq_ok_map fun c _ => ?_
      rw [Function.comp_apply, hok]
      rfl
  · intro hnone
    have hconditions : conditionsOf code = [none] :=
      if_neg fun hany => by
        obtain ⟨b, hb⟩ := any_isConditionToken_iff.1 hany
        exact hnone b hb
    rw [opcodes_eq h, hconditions, List.mapM_cons, List.mapM_nil]
    cases code.compile (r.context none) with
    | error e => exact .inl ⟨e, rfl⟩
    | ok d => exact .inr ⟨_, rfl⟩

/-- `CMOVcc [rm: 0f 40+c /r]` -/
def conditionalMove : Row where
  mnemonic := "CMOVcc".toList
  operands := []
  code := some ⟨[.byte 0x0F, .bytePlusCondition 0x40, .modRM], none⟩
  tuple := none
  flags := []

/-- `CPUID [0f a2]` -/
def identification : Row :=
  { conditionalMove with
    mnemonic := "CPUID".toList
    code := some ⟨[.byte 0x0F, .byte 0xA2], none⟩ }

theorem opcodes_conditions_cmov :
    (∃ pairs f, conditionalMove.opcodes = .ok pairs ∧ conditionalMove.Expands f pairs ∧
      (pairs.map fun p => (p.1, p.2.fields.mainByte))[4]? = some ("cmove".toList, 0x44)) ∧
    ∃ p, identification.opcodes = .ok [p] := by
  have hentry : (conditionalMove.opcodes.toOption.bind fun pairs =>
      (pairs.map fun p => (p.1, p.2.fields.mainByte))[4]?) = some ("cmove".toList, 0x44) := by
    decide +kernel
  have hone : identification.opcodes.toOption.isSome = true := by decide +kernel
  constructor
  · obtain ⟨e, he⟩ | ⟨pairs, f, hpairs, hexpands⟩ :=
      ((opcodes_conditions (r := conditionalMove) rfl).1 ⟨0x40, by decide⟩).2
    · rw [he] at hentry
      cases hentry
    · rw [hpairs] at hentry
      exact ⟨pairs, f, hpairs, hexpands, hentry⟩
  · obtain ⟨e, he⟩ | hpair :=
      (opcodes_conditions (r := identification) rfl).2 (by simp)
    · rw [he] at hone
      cases hone
    · exact hpair

end Row
end X86Encoding
