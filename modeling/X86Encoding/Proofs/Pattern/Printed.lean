import X86Encoding.Proofs.Pattern.Constants
import X86Encoding.Proofs.Pattern.Partition

/-!
Printed patterns. One is printed as a number where the short way finds its value, so not where it
has a letter, and not where it has more than 64 digits. Then it is printed as its normal form with
separators, which are all that printing adds.
-/

set_option autoImplicit false

namespace X86Encoding.Pattern

variable {p n : Text}

def HasVariable (n : Text) : Prop := ∃ r, .ok r ∈ runs n ∧ r.isVariable = true

theorem hasVariable_iff (hn : ∀ c ∈ n, isPatternChar c = true) :
    HasVariable n ↔ ∃ c ∈ n, isBit c = false := by
  obtain ⟨rs, hrs, hruns, -⟩ := exists_runs hn (t := []) nofun
  have hmem : ∀ r, .ok r ∈ runs n ↔ r ∈ rs := by
    intro r
    rw [hruns]
    simp
  constructor
  · rintro ⟨r, hr, hvariable⟩
    have hr' := (hmem r).1 hr
    refine ⟨r.ch, ?_, by simpa [BitRun.isVariable, BitRun.isConstant] using hvariable⟩
    rw [← hrs.spells]
    exact List.mem_flatMap.2 ⟨r, hr', List.mem_replicate.2 ⟨(hrs.length_pos r hr').ne', rfl⟩⟩
  · rintro ⟨c, hc, hbit⟩
    rw [← hrs.spells] at hc
    obtain ⟨r, hr, hcr⟩ := List.mem_flatMap.1 hc
    obtain rfl := List.eq_of_mem_replicate hcr
    exact ⟨r, (hmem r).2 hr, by simp [BitRun.isVariable, BitRun.isConstant, hbit]⟩

theorem not_hasVariable_iff (hn : ∀ c ∈ n, isPatternChar c = true) :
    ¬HasVariable n ↔ ∀ c ∈ n, isBit c = true := by
  rw [hasVariable_iff hn]
  simp

def gap (c d : Char) : Text :=
  if c ≠ d ∧ ¬(isBit c = true ∧ isBit d = true) then ['_'] else []

theorem isBoundary_iff {c d : Char} :
    isBoundary c d = true ↔ c ≠ d ∧ ¬(isBit c = true ∧ isBit d = true) := by
  rw [isBoundary]
  by_cases hcd : c = d
  · subst hcd
    cases hc : isBit c <;> simp
  · cases hc : isBit c <;> simp [hcd, Ne.symm hcd]

theorem separate_cons (c : Char) (t : Text) :
    separate (c :: t) = c :: (t.head?.elim [] (gap c) ++ separate t) := by
  cases t with
  | nil => rfl
  | cons d t =>
    rw [separate, List.head?_cons, Option.elim_some, gap]
    by_cases h : c ≠ d ∧ ¬(isBit c = true ∧ isBit d = true)
    · rw [if_pos (isBoundary_iff.2 h), if_pos h]
      rfl
    · rw [if_neg fun hb => h (isBoundary_iff.1 hb), if_neg h]
      rfl

theorem separate_of_digits (hn : ∀ c ∈ n, isBit c = true) : separate n = n := by
  induction n with
  | nil => rfl
  | cons c t ih =>
    have hgap : t.head?.elim [] (gap c) = [] := by
      cases t with
      | nil => rfl
      | cons d t => exact if_neg fun h => h.2 ⟨hn c (by simp), hn d (by simp)⟩
    rw [separate_cons, hgap, ih fun d hd => hn d (List.mem_cons_of_mem c hd), List.nil_append]

@[simp] theorem strip_append (s t : Text) : strip (s ++ t) = strip s ++ strip t :=
  List.filter_append s t

theorem strip_of_not_mem (hn : '_' ∉ n) : strip n = n :=
  List.filter_eq_self.2 fun _ hc => decide_eq_true fun h => hn (h ▸ hc)

theorem not_mem_strip (p : Text) : '_' ∉ strip p := fun h => by simp [strip] at h

@[simp] theorem strip_gap (c : Char) (t : Text) : strip (t.head?.elim [] (gap c)) = [] := by
  cases t with
  | nil => rfl
  | cons d t =>
    rw [List.head?_cons, Option.elim_some, gap]
    split <;> rfl

@[simp] theorem strip_separate (t : Text) : strip (separate t) = strip t := by
  induction t with
  | nil => rfl
  | cons c t ih =>
    simp [separate_cons, strip_cons, ih]

/-- A text is separated by separating two parts of it, and what stands between them. -/
theorem separate_append (s : Text) (c d : Char) (t : Text) :
    separate (s ++ c :: d :: t) = separate (s ++ [c]) ++ (gap c d ++ separate (d :: t)) := by
  induction s with
  | nil => exact separate_cons c (d :: t)
  | cons b s ih =>
    have hhead : (s ++ c :: d :: t).head? = (s ++ [c]).head? := by cases s <;> rfl
    rw [List.cons_append, separate_cons, hhead, ih, List.cons_append, separate_cons b (s ++ [c]),
      List.cons_append, List.append_assoc]

theorem exists_separate_cons (c : Char) (t : Text) :
    ∃ u, separate (c :: t) = c :: u ∧ strip u = strip t :=
  ⟨_, separate_cons c t, by simp⟩

theorem exists_separate_concat (t : Text) (c : Char) :
    ∃ u, separate (t ++ [c]) = u ++ [c] ∧ strip u = strip t := by
  obtain ⟨u, hu⟩ : ∃ u, separate (t ++ [c]) = u ++ [c] := by
    rcases List.eq_nil_or_concat t with rfl | ⟨s, b, rfl⟩
    · exact ⟨[], rfl⟩
    · refine ⟨separate (s ++ [b]) ++ gap b c, ?_⟩
      rw [List.concat_eq_append, List.append_assoc, List.singleton_append, separate_append,
        List.append_assoc]
      rfl
  have hstrip := strip_separate (t ++ [c])
  rw [hu, strip_append, strip_append] at hstrip
  exact ⟨u, hu, List.append_cancel_right hstrip⟩

/-- A normal form in print. Between its neighbours stands what should stand there, and nothing
stands in front of it or behind it. -/
structure IsSeparated (n q : Text) : Prop where
  strip_eq : strip q = n
  between : ∀ s c d t, n = s ++ c :: d :: t →
    ∃ u v, strip u = s ∧ strip v = t ∧ q = u ++ c :: (gap c d ++ d :: v)
  head?_eq : q.head? = n.head?
  getLast?_eq : q.getLast? = n.getLast?

theorem isSeparated_separate (hn : '_' ∉ n) : IsSeparated n (separate n) where
  strip_eq := (strip_separate n).trans (strip_of_not_mem hn)
  between s c d t hcut := by
    obtain ⟨u, hu, hus⟩ := exists_separate_concat s c
    obtain ⟨v, hv, hvt⟩ := exists_separate_cons d t
    have hs : strip s = s := strip_of_not_mem fun h => hn (by simp [hcut, h])
    have ht : strip t = t := strip_of_not_mem fun h => hn (by simp [hcut, h])
    refine ⟨u, v, hus.trans hs, hvt.trans ht, ?_⟩
    rw [hcut, separate_append, hu, hv, List.append_assoc]
    rfl
  head?_eq := by
    cases n with
    | nil => rfl
    | cons c t =>
      obtain ⟨u, hu, -⟩ := exists_separate_cons c t
      rw [hu]
      rfl
  getLast?_eq := by
    rcases List.eq_nil_or_concat n with rfl | ⟨t, c, rfl⟩
    · rfl
    · obtain ⟨u, hu, -⟩ := exists_separate_concat t c
      rw [List.concat_eq_append, hu, List.getLast?_concat, List.getLast?_concat]

theorem pretty_of_digits (hp : ∀ c ∈ strip p, isBit c = true)
    (hwidth : (strip p).length ≤ Bits.maxLength) :
    pretty p = if (strip p).length = 8 then
        '0' :: 'x' :: Text.hexByte (UInt8.ofNat (binaryValue (strip p)))
      else '0' :: 'b' :: strip p := by
  have hconst : constant? (strip p) = some (constant (strip p)) :=
    constant?_eq_some_iff.2 ⟨by simpa using hp, by simpa using hwidth, by simp [constant]⟩
  have hlength : (constant (strip p)).length = 8 ↔ (strip p).length = 8 := by
    have hlt : (strip p).length < UInt8.size := Nat.lt_of_le_of_lt hwidth (by decide)
    rw [constant, ← UInt8.toNat_inj, UInt8.toNat_ofNat_of_lt' hlt]
    rfl
  have hvalue : (constant (strip p)).value.toUInt8 = UInt8.ofNat (binaryValue (strip p)) := by
    rw [constant, ← UInt8.toNat_inj, UInt64.toNat_toUInt8, UInt64.toNat_ofNat',
      UInt8.toNat_ofNat']
    exact Nat.mod_mod_of_dvd _ (by decide)
  rw [pretty, hconst]
  simp only [hlength, hvalue]

theorem pretty_of_not_constant
    (hp : ¬((∀ c ∈ strip p, isBit c = true) ∧ (strip p).length ≤ Bits.maxLength)) :
    pretty p = separate (strip p) := by
  have hconst : constant? (strip p) = none := by
    rw [Option.eq_none_iff_forall_ne_some]
    intro v hv
    rw [constant?_eq_some_iff, strip_strip] at hv
    exact hp ⟨hv.1, hv.2.1⟩
  rw [pretty, hconst]

theorem pretty_of_letter (hp : ∃ c ∈ strip p, Text.isLower c = true) :
    pretty p = separate (strip p) := by
  obtain ⟨c, hc, hlower⟩ := hp
  refine pretty_of_not_constant fun h => ?_
  rw [isLower_eq_false_of_isBit (h.1 c hc)] at hlower
  cases hlower

theorem exists_letter_strip (hp : ∃ c ∈ p, Text.isLower c = true) :
    ∃ c ∈ strip p, Text.isLower c = true := by
  obtain ⟨c, hc, hlower⟩ := hp
  have hsep : c ≠ '_' := fun h => by simp [h, Text.isLower] at hlower
  exact ⟨c, List.mem_filter.2 ⟨hc, decide_eq_true hsep⟩, hlower⟩

theorem isConstant_iff :
    isConstant p = true ↔ (∀ c ∈ strip p, isBit c = true) ∧ (strip p).length ≤ Bits.maxLength := by
  rw [isConstant, Option.isSome_iff_exists]
  constructor
  · rintro ⟨v, hv⟩
    obtain ⟨hp, hwidth, -⟩ := constant?_eq_some_iff.1 hv
    exact ⟨hp, hwidth⟩
  · rintro ⟨hp, hwidth⟩
    exact ⟨_, constant?_eq_some_iff.2 ⟨hp, hwidth, rfl⟩⟩

/-- A pattern is a constant exactly if none of its runs is of a letter and it has no more than 64
digits. Eight digits are printed as a byte, others in base two, and more than 64 as they are. -/
theorem isConstant_iff_not_hasVariable (hn : normalize p = .ok n) :
    (isConstant p = true ↔ ¬HasVariable n ∧ n.length ≤ Bits.maxLength) ∧
    (¬HasVariable n → pretty p =
      if n.length = 8 then '0' :: 'x' :: Text.hexByte (UInt8.ofNat (binaryValue n))
      else if n.length ≤ Bits.maxLength then '0' :: 'b' :: n
      else n) := by
  obtain ⟨rfl, -, hpattern⟩ := normalize_eq_ok_iff.1 hn
  rw [not_hasVariable_iff hpattern.isPatternChar]
  refine ⟨isConstant_iff, fun hdigits => ?_⟩
  by_cases hwidth : (strip p).length ≤ Bits.maxLength
  · rw [pretty_of_digits hdigits hwidth, if_pos hwidth]
  · have hbyte : (strip p).length ≠ 8 := fun h => hwidth (by rw [h]; decide)
    rw [pretty_of_not_constant fun h => hwidth h.2, separate_of_digits hdigits, if_neg hbyte,
      if_neg hwidth]

theorem isConstant_iff_not_hasVariable_byte :
    normalize "0000_1011".toList = .ok "00001011".toList ∧
      ¬HasVariable "00001011".toList ∧ isConstant "0000_1011".toList = true ∧
      pretty "0000_1011".toList = "0x0b".toList := by
  have hn : normalize "0000_1011".toList = .ok "00001011".toList := rfl
  have hnone : ¬HasVariable "00001011".toList :=
    (not_hasVariable_iff (List.all_eq_true.1 rfl)).2 (List.all_eq_true.1 rfl)
  obtain ⟨hconstant, hpretty⟩ := isConstant_iff_not_hasVariable hn
  exact ⟨hn, hnone, hconstant.2 ⟨hnone, by decide⟩, hpretty hnone⟩

/-- A pattern of 65 digits has no letter, but it is not a constant either, and it is printed
without the mark of base two. -/
theorem not_isConstant_of_wide :
    let p := List.replicate 65 '1'
    normalize p = .ok p ∧ ¬(isConstant p = true ↔ ¬HasVariable p) ∧
      ¬(¬HasVariable p → pretty p = '0' :: 'b' :: p) := by
  intro p
  have hnone : ¬HasVariable p :=
    (not_hasVariable_iff (List.all_eq_true.1 rfl)).2 (List.all_eq_true.1 rfl)
  have hconstant : isConstant p = false := rfl
  have hpretty : pretty p = p := rfl
  refine ⟨rfl, fun h => ?_, fun h => ?_⟩
  · cases hconstant.symm.trans (h.2 hnone)
  · cases hpretty.symm.trans (h hnone)

/-- A pattern with a letter is printed as its normal form with separators. They change neither its
normal form nor its value, and stand in the same places when it is printed again. -/
theorem pretty_isSeparated (hn : normalize p = .ok n) (hletter : ∃ c ∈ p, Text.isLower c = true) :
    normalize (pretty p) = normalize p ∧ pretty (pretty p) = pretty p ∧
      (∀ resolve, evaluate (pretty p) resolve = evaluate p resolve) ∧
      IsSeparated n (pretty p) := by
  obtain ⟨rfl, hne, hpattern⟩ := normalize_eq_ok_iff.1 hn
  have hletter' := exists_letter_strip hletter
  have hpretty := pretty_of_letter hletter'
  have hstrip : strip (pretty p) = strip p := by simp [hpretty]
  have hnormal : normalize (pretty p) = .ok (strip p) :=
    normalize_eq_ok_iff.2 ⟨hstrip.symm, hne, hpattern⟩
  refine ⟨hnormal.trans hn.symm, ?_, fun resolve => ?_, ?_⟩
  · rw [pretty_of_letter (hstrip ▸ hletter'), hstrip, hpretty]
  · rw [evaluate_of_ok hnormal, evaluate_of_ok hn]
  · rw [hpretty]
    exact isSeparated_separate (not_mem_strip p)

theorem pretty_isSeparated_registers :
    normalize "1_1rrrb_bb".toList = .ok "11rrrbbb".toList ∧
      (∃ c ∈ "1_1rrrb_bb".toList, Text.isLower c = true) ∧
      pretty "1_1rrrb_bb".toList = "11_rrr_bbb".toList ∧
      normalize "11_rrr_bbb".toList = .ok "11rrrbbb".toList ∧
      pretty "11_rrr_bbb".toList = "11_rrr_bbb".toList ∧
      evaluate "11_rrr_bbb".toList (fun _ => none) =
        .error (.invalidOperation (.unboundVariable 'r')) ∧
      IsSeparated "11rrrbbb".toList "11_rrr_bbb".toList := by
  have hn : normalize "1_1rrrb_bb".toList = .ok "11rrrbbb".toList := rfl
  have hletter : ∃ c ∈ "1_1rrrb_bb".toList, Text.isLower c = true := ⟨'r', by decide, rfl⟩
  have hpretty : pretty "1_1rrrb_bb".toList = "11_rrr_bbb".toList := rfl
  have hones : appendRuns (fun _ => none) (0, 0) (runs "11rrrbbb".toList) =
      appendRuns (fun _ => none) (3, 2)
        (runsFrom "11rrrbbb".toList 2 (bytes "rrrbbb".toList)) :=
    @appendRuns_run (fun _ => none) _ _ 0 '1' rfl 1 "rrrbbb".toList (by decide)
  have hletters : appendRuns (fun _ => none) (3, 2)
      (runsFrom "11rrrbbb".toList 2 (bytes "rrrbbb".toList)) =
        .error (.invalidOperation (.unboundVariable 'r')) :=
    @appendRuns_run (fun _ => none) _ _ 2 'r' rfl 2 "bbb".toList (by decide)
  have hunbound : evaluate "1_1rrrb_bb".toList (fun _ => none) =
      .error (.invalidOperation (.unboundVariable 'r')) := by
    rw [evaluate_of_ok hn, hones, hletters]
    rfl
  obtain ⟨hnormal, hagain, hvalue, hseparated⟩ := pretty_isSeparated hn hletter
  rw [hpretty] at hnormal hagain hvalue hseparated
  exact ⟨hn, hletter, hpretty, hnormal.trans hn, hagain, (hvalue _).trans hunbound, hseparated⟩

end X86Encoding.Pattern
