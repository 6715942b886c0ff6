import X86Encoding.Proofs.Pattern.Evaluation

/-!
Constant patterns. Digit by digit and run by run the same number is built: the value of the digits
in base two, put behind the bits that are there. So the short way through a pattern without letters
and the evaluation of its runs agree.
-/

set_option autoImplicit false

namespace X86Encoding.Pattern

def binaryValue : Text → Nat
  | [] => 0
  | c :: t => (bitValue c).toNat * 2 ^ t.length + binaryValue t

theorem toNat_bitValue_le (c : Char) : (bitValue c).toNat ≤ 1 := by
  unfold bitValue
  split <;> decide

theorem binaryValue_lt (t : Text) : binaryValue t < 2 ^ t.length := by
  induction t with
  | nil => decide
  | cons c t ih =>
    have hbit := Nat.mul_le_mul_right (2 ^ t.length) (toNat_bitValue_le c)
    simp only [binaryValue, List.length_cons, Nat.pow_succ]
    omega

theorem binaryValue_append (s t : Text) :
    binaryValue (s ++ t) = binaryValue s * 2 ^ t.length + binaryValue t := by
  induction s with
  | nil => simp [binaryValue]
  | cons c s ih =>
    simp only [List.cons_append, binaryValue, ih, List.length_append, Nat.pow_add, Nat.add_mul,
      Nat.mul_assoc, Nat.add_assoc]

theorem binaryValue_replicate (k : Nat) (c : Char) :
    binaryValue (List.replicate k c) = (bitValue c).toNat * (2 ^ k - 1) := by
  induction k with
  | zero => simp [binaryValue]
  | succ k ih =>
    have hsum : 2 ^ (k + 1) - 1 = 2 ^ k + (2 ^ k - 1) := by
      have hpos := Nat.two_pow_pos k
      rw [Nat.pow_succ]
      omega
    rw [List.replicate_succ, binaryValue, ih, List.length_replicate, hsum, Nat.mul_add]

def withDigits (acc : UInt64 × Nat) (n : Text) : UInt64 × Nat :=
  (UInt64.ofNat (acc.1.toNat * 2 ^ n.length + binaryValue n), acc.2 + n.length)

section

variable {acc : UInt64 × Nat} {n : Text}

theorem withDigits_lt_two_pow (hacc : acc.1.toNat < 2 ^ acc.2) (n : Text) :
    acc.1.toNat * 2 ^ n.length + binaryValue n < 2 ^ (acc.2 + n.length) := by
  have hn := binaryValue_lt n
  have hroom := Nat.mul_le_mul_right (2 ^ n.length) (Nat.succ_le_of_lt hacc)
  rw [Nat.succ_mul, ← Nat.pow_add] at hroom
  omega

theorem toNat_withDigits (hacc : acc.1.toNat < 2 ^ acc.2)
    (hwidth : acc.2 + n.length ≤ Bits.maxLength) :
    (withDigits acc n).1.toNat = acc.1.toNat * 2 ^ n.length + binaryValue n := by
  have hlt := withDigits_lt_two_pow hacc n
  have hle : 2 ^ (acc.2 + n.length) ≤ 2 ^ 64 := Nat.pow_le_pow_right (by decide) hwidth
  exact UInt64.toNat_ofNat_of_lt' (Nat.lt_of_lt_of_le hlt hle)

theorem withDigits_fits (hacc : acc.1.toNat < 2 ^ acc.2)
    (hwidth : acc.2 + n.length ≤ Bits.maxLength) :
    (withDigits acc n).1.toNat < 2 ^ (withDigits acc n).2 := by
  rw [toNat_withDigits hacc hwidth]
  exact withDigits_lt_two_pow hacc n

@[simp] theorem withDigits_nil (acc : UInt64 × Nat) : withDigits acc [] = acc := by
  simp [withDigits, binaryValue]

theorem withDigits_append (hacc : acc.1.toNat < 2 ^ acc.2) {s : Text}
    (hwidth : acc.2 + s.length ≤ Bits.maxLength) (t : Text) :
    withDigits (withDigits acc s) t = withDigits acc (s ++ t) := by
  have hvalue : (acc.1.toNat * 2 ^ s.length + binaryValue s) * 2 ^ t.length + binaryValue t =
      acc.1.toNat * 2 ^ (s ++ t).length + binaryValue (s ++ t) := by
    simp only [binaryValue_append, List.length_append, Nat.pow_add, Nat.add_mul, Nat.mul_assoc,
      Nat.add_assoc]
  rw [withDigits, toNat_withDigits hacc hwidth, hvalue]
  simp [withDigits, Nat.add_assoc]

theorem or_binaryValue (hacc : acc.1.toNat < 2 ^ acc.2)
    (hwidth : acc.2 + n.length ≤ Bits.maxLength) {low : UInt64} (hlow : low.toNat = binaryValue n) :
    UInt64.ofNat (acc.1.toNat * 2 ^ n.length) ||| low = (withDigits acc n).1 := by
  have hlt := withDigits_lt_two_pow hacc n
  have hle : 2 ^ (acc.2 + n.length) ≤ 2 ^ 64 := Nat.pow_le_pow_right (by decide) hwidth
  have hhigh : acc.1.toNat * 2 ^ n.length < 2 ^ 64 := by omega
  rw [← UInt64.toNat_inj, UInt64.toNat_or, UInt64.toNat_ofNat_of_lt' hhigh, hlow,
    toNat_withDigits hacc hwidth, Nat.mul_comm,
    Nat.two_pow_add_eq_or_of_lt (binaryValue_lt n) acc.1.toNat]

theorem shiftLeft_or_bitValue (hacc : acc.1.toNat < 2 ^ acc.2) (hwidth : acc.2 < Bits.maxLength)
    (c : Char) : acc.1 <<< 1 ||| bitValue c = (withDigits acc [c]).1 := by
  have hshift : acc.1 <<< 1 = UInt64.ofNat (acc.1.toNat * 2 ^ [c].length) := by
    rw [← UInt64.toNat_inj, UInt64.toNat_shiftLeft, UInt64.toNat_ofNat', Nat.shiftLeft_eq]
    rfl
  rw [hshift]
  exact or_binaryValue (n := [c]) hacc hwidth (by simp [binaryValue])

theorem strip_cons (c : Char) (p : Text) :
    strip (c :: p) = if c = '_' then strip p else c :: strip p := by
  by_cases hc : c = '_' <;> simp [strip, hc]

/-- Reading digit by digit, up to the width of a word. -/
theorem readConstant_eq_some_iff {p : Text} {v : Bits} (hacc : acc.1.toNat < 2 ^ acc.2)
    (hle : acc.2 ≤ Bits.maxLength) :
    readConstant acc.1 acc.2 p = some v ↔ (∀ c ∈ strip p, isBit c = true) ∧
      acc.2 + (strip p).length ≤ Bits.maxLength ∧
      v = ⟨(withDigits acc (strip p)).1, UInt8.ofNat (withDigits acc (strip p)).2⟩ := by
  induction p generalizing acc with
  | nil =>
    rw [readConstant, show strip [] = [] from rfl, withDigits_nil]
    exact ⟨fun h => ⟨nofun, hle, (Option.some.inj h).symm⟩, fun h => by rw [h.2.2]⟩
  | cons c p ih =>
    rw [strip_cons, readConstant]
    by_cases hsep : c = '_'
    · subst hsep
      exact ih hacc hle
    rw [if_neg hsep]
    cases hbit : isBit c with
    | false => simp [hsep, hbit]
    | true =>
      by_cases hfull : acc.2 = Bits.maxLength
      · have hwide : ¬acc.2 + (c :: strip p).length ≤ Bits.maxLength := by
          rw [List.length_cons]
          omega
        rw [if_pos rfl, if_pos hfull]
        exact iff_of_false nofun fun h => hwide h.2.1
      · have hwidth : acc.2 < Bits.maxLength := Nat.lt_of_le_of_ne hle hfull
        have hnext := ih (withDigits_fits (n := [c]) hacc hwidth) hwidth
        rw [withDigits_append (s := [c]) hacc hwidth] at hnext
        rw [if_pos rfl, if_neg hfull, shiftLeft_or_bitValue hacc hwidth]
        refine hnext.trans ?_
        simp [withDigits, hbit, Nat.add_assoc, Nat.add_comm 1]

variable {resolve : Char → Option Bits}

theorem isPatternChar_of_isBit {c : Char} (hc : isBit c = true) : isPatternChar c = true := by
  simp [isPatternChar, hc]

theorem appendRun_digits (hacc : acc.1.toNat < 2 ^ acc.2) {c : Char} (hc : isBit c = true)
    (start : Nat) {k : Nat} (hwidth : acc.2 + k ≤ Bits.maxLength) :
    appendRun resolve acc ⟨c, start, k⟩ = .ok (withDigits acc (List.replicate k c)) := by
  have hlow : (if c == '1' then UInt64.ofNat (2 ^ k - 1) else 0).toNat =
      binaryValue (List.replicate k c) := by
    rw [binaryValue_replicate, bitValue]
    split
    · rw [toNat_ones (by omega)]
      simp
    · simp
  have hlength : acc.2 + (List.replicate k c).length ≤ Bits.maxLength := by
    rwa [List.length_replicate]
  have hjoin := or_binaryValue hacc hlength hlow
  rw [List.length_replicate] at hjoin
  refine appendRun_eq_ok_iff.2 ⟨hwidth, _, if_pos hc, ?_⟩
  rw [hjoin]
  simp [withDigits]

/-- Reading run by run. No letter is met, so nothing is looked up. -/
theorem appendRuns_digits (p : Text) (start : Nat) (hn : ∀ c ∈ n, isBit c = true)
    (hacc : acc.1.toNat < 2 ^ acc.2) (hwidth : acc.2 + n.length ≤ Bits.maxLength) :
    appendRuns resolve acc (runsFrom p start (bytes n)) = .ok (withDigits acc n) := by
  induction n using Text.runInduction generalizing start acc with
  | nil =>
    simp
  | run c k rest hrest ih =>
    rw [List.length_append] at hwidth
    have hc : isBit c = true := hn c (by simp)
    have hrun : acc.2 + (List.replicate (k + 1) c).length ≤ Bits.maxLength := by omega
    have hstep : appendRun resolve acc ⟨c, start, k + 1⟩ =
        .ok (withDigits acc (List.replicate (k + 1) c)) :=
      appendRun_digits hacc hc start (by rwa [List.length_replicate] at hrun)
    have hbehind : (withDigits acc (List.replicate (k + 1) c)).2 + rest.length ≤
        Bits.maxLength := by
      rwa [withDigits, Nat.add_assoc]
    rw [appendRuns_run p acc start (isPatternChar_of_isBit hc) k hrest, hstep]
    refine (ih (start + (k + 1)) (fun d hd => hn d (List.mem_append_right _ hd))
      (withDigits_fits hacc hrun) hbehind).trans ?_
    rw [withDigits_append hacc hrun]

end

def constant (n : Text) : Bits := ⟨UInt64.ofNat (binaryValue n), UInt8.ofNat n.length⟩

theorem withDigits_zero (n : Text) :
    withDigits (0, 0) n = (UInt64.ofNat (binaryValue n), n.length) := by
  simp [withDigits]

theorem fits_zero : ((0, 0) : UInt64 × Nat).1.toNat < 2 ^ ((0, 0) : UInt64 × Nat).2 :=
  Nat.zero_lt_one

theorem constant?_eq_some_iff {p : Text} {v : Bits} :
    constant? p = some v ↔ (∀ c ∈ strip p, isBit c = true) ∧
      (strip p).length ≤ Bits.maxLength ∧ v = constant (strip p) := by
  have h := readConstant_eq_some_iff (p := p) (v := v) fits_zero (Nat.zero_le _)
  rwa [withDigits_zero, Nat.zero_add] at h

theorem isPattern_of_digits {n : Text} (hn : ∀ c ∈ n, isBit c = true) : IsPattern n where
  isPatternChar c hc := isPatternChar_of_isBit (hn c hc)
  contiguous c hc i _ _ _ _ hi _ := by
    have hbit := hn c (List.mem_of_getElem? hi)
    rw [isLower_eq_false_of_isBit hbit] at hc
    cases hc

theorem evaluate_of_digits {p : Text} (hp : ∀ c ∈ strip p, isBit c = true) (hne : strip p ≠ [])
    (hwidth : (strip p).length ≤ Bits.maxLength) (resolve : Char → Option Bits) :
    evaluate p resolve = .ok (constant (strip p)) := by
  have hn := normalize_eq_ok_iff.2 ⟨rfl, hne, isPattern_of_digits hp⟩
  have hruns : appendRuns resolve (0, 0) (runsFrom (strip p) 0 (bytes (strip p))) =
      .ok (withDigits (0, 0) (strip p)) :=
    appendRuns_digits (strip p) 0 hp fits_zero (by rwa [Nat.zero_add])
  rw [evaluate_of_ok hn, runs, hruns, withDigits_zero]
  rfl

/-- With nothing bound, a pattern that has a value has no letter. -/
theorem digits_of_evaluate {p : Text} {v : Bits} (h : evaluate p (fun _ => none) = .ok v) :
    strip p ≠ [] ∧ (strip p).length ≤ Bits.maxLength ∧ ∀ c ∈ strip p, isBit c = true := by
  cases hp : normalize p with
  | error e => cases (evaluate_of_error hp).symm.trans h
  | ok n =>
    obtain ⟨rfl, hne, hpattern⟩ := normalize_eq_ok_iff.1 hp
    obtain ⟨hwidth, hbinds⟩ := (exists_evaluate_iff hp).1 ⟨v, h⟩
    refine ⟨hne, hwidth, fun c hc => ?_⟩
    cases hlower : Text.isLower c with
    | true =>
      obtain ⟨w, hw, -⟩ := hbinds c hc hlower
      cases hw
    | false => simpa [isPatternChar, hlower] using hpattern.isPatternChar c hc

theorem exists_digit_iff {p : Text} (hp : ∀ c ∈ strip p, isBit c = true) :
    (∃ c ∈ p, isBit c = true) ↔ strip p ≠ [] := by
  constructor
  · intro ⟨c, hc, hbit⟩
    have hmem : c ∈ strip p := List.mem_filter.2 ⟨hc, by
      have hne : c ≠ '_' := fun h => by simp [h, isBit] at hbit
      simp [hne]⟩
    exact List.ne_nil_of_mem hmem
  · intro hne
    obtain ⟨c, hc⟩ := List.exists_mem_of_ne_nil _ hne
    exact ⟨c, (List.mem_filter.1 hc).1, hp c hc⟩

/-- The short way finds a value in a pattern with a digit exactly if evaluation with nothing bound
finds the same value, and then evaluation finds it whatever is bound. -/
theorem constant?_iff_evaluate (p : Text) (v : Bits) :
    ((constant? p = some v ∧ ∃ c ∈ p, isBit c = true) ↔ evaluate p (fun _ => none) = .ok v) ∧
    ((constant? p = some v ∧ ∃ c ∈ p, isBit c = true) ↔
      ∀ resolve, evaluate p resolve = .ok v) := by
  have hall : constant? p = some v ∧ (∃ c ∈ p, isBit c = true) →
      ∀ resolve, evaluate p resolve = .ok v := by
    intro ⟨hv, hdigit⟩ resolve
    obtain ⟨hp, hwidth, rfl⟩ := constant?_eq_some_iff.1 hv
    exact evaluate_of_digits hp ((exists_digit_iff hp).1 hdigit) hwidth resolve
  have hunbound : evaluate p (fun _ => none) = .ok v →
      constant? p = some v ∧ ∃ c ∈ p, isBit c = true := by
    intro h
    obtain ⟨hne, hwidth, hp⟩ := digits_of_evaluate h
    have hv := (evaluate_of_digits hp hne hwidth fun _ => none).symm.trans h
    exact ⟨constant?_eq_some_iff.2 ⟨hp, hwidth, (Except.ok.inj hv).symm⟩,
      (exists_digit_iff hp).2 hne⟩
  exact ⟨⟨fun h => hall h _, hunbound⟩, ⟨hall, fun h => hunbound (h _)⟩⟩

/-- Without a digit the two part: the short way gives the value of width zero. -/
example : constant? "__".toList = some Bits.empty ∧
    evaluate "__".toList (fun _ => none) = .error (.format .emptyPattern "__".toList) :=
  ⟨rfl, rfl⟩

end X86Encoding.Pattern
