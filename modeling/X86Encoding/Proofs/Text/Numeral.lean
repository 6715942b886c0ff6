import X86Encoding.Text.Numeral

/-!
Numerals: what digits of a base denote, and what the reader makes of them. The reader looks at the
limit after every digit; as the value only grows, that is to say that the number itself is below the
limit. It takes a plus sign in front of the digits, so that a text can be longer than its digits.
-/

set_option autoImplicit false

namespace X86Encoding.Text

def numeralValue (base : Nat) : Text → Nat
  | [] => 0
  | c :: t => (digitValue? c).getD 0 * base ^ t.length + numeralValue base t

def IsDigitIn (base : Nat) (c : Char) : Prop := ∃ d, digitIn base c = some d

theorem digitIn_eq_some_iff {base d : Nat} {c : Char} :
    digitIn base c = some d ↔ digitValue? c = some d ∧ d < base := by
  rw [digitIn, Option.filter_eq_some_iff, decide_eq_true_iff]

theorem not_isDigitIn_plus (base : Nat) : ¬IsDigitIn base '+' := by
  rintro ⟨d, h⟩
  cases (digitIn_eq_some_iff.1 h).1

theorem toNat_bounds {a b c : Char} (h : (a ≤ c && c ≤ b) = true) :
    a.toNat ≤ c.toNat ∧ c.toNat ≤ b.toNat := by
  rwa [Bool.and_eq_true, decide_eq_true_iff, decide_eq_true_iff] at h

theorem digitValue?_cases {c : Char} {d : Nat} (h : digitValue? c = some d) :
    (d < 10 ∧ c.toNat = 48 + d) ∨
      (10 ≤ d ∧ d < 16 ∧ (c.toNat = 87 + d ∨ c.toNat = 55 + d)) := by
  unfold digitValue? at h
  split at h
  · rename_i hc
    have hrange : 48 ≤ c.toNat ∧ c.toNat ≤ 57 := toNat_bounds hc
    have hvalue : c.toNat - 48 = d := Option.some.inj h
    omega
  split at h
  · rename_i hc
    have hrange : 97 ≤ c.toNat ∧ c.toNat ≤ 102 := toNat_bounds hc
    have hvalue : c.toNat - 97 + 10 = d := Option.some.inj h
    omega
  split at h
  · rename_i hc
    have hrange : 65 ≤ c.toNat ∧ c.toNat ≤ 70 := toNat_bounds hc
    have hvalue : c.toNat - 65 + 10 = d := Option.some.inj h
    omega
  · cases h

@[simp] theorem isDigitIn_sixteen_iff {c : Char} :
    IsDigitIn 16 c ↔ ∃ d, digitValue? c = some d := by
  refine exists_congr fun d => digitIn_eq_some_iff.trans (and_iff_left_of_imp fun h => ?_)
  have hcases := digitValue?_cases h
  omega

section Reading

variable {base limit value n : Nat} {t : Text}

theorem readDigits_eq_ok_iff (hbase : 0 < base) (hvalue : value < limit) :
    readDigits base limit value t = .ok n ↔ (∀ c ∈ t, IsDigitIn base c) ∧
      n = value * base ^ t.length + numeralValue base t ∧ n < limit := by
  induction t generalizing value with
  | nil =>
    rw [readDigits, numeralValue, List.length_nil, Nat.pow_zero, Nat.mul_one, Nat.add_zero]
    constructor
    · intro h
      obtain rfl := Except.ok.inj h
      exact ⟨nofun, rfl, hvalue⟩
    · rintro ⟨-, rfl, -⟩
      rfl
  | cons c t ih =>
    rw [readDigits]
    cases hc : digitIn base c with
    | none =>
      refine iff_of_false nofun fun h => ?_
      obtain ⟨d, hd⟩ := h.1 c List.mem_cons_self
      cases hc.symm.trans hd
    | some d =>
      have hdigit : IsDigitIn base c := ⟨d, hc⟩
      have hsum : value * base ^ (c :: t).length + numeralValue base (c :: t) =
          (value * base + d) * base ^ t.length + numeralValue base t := by
        rw [numeralValue, (digitIn_eq_some_iff.1 hc).1, Option.getD_some, List.length_cons,
          Nat.pow_succ', Nat.add_mul, Nat.mul_assoc, Nat.add_assoc]
      rw [hsum, List.forall_mem_cons, and_iff_right hdigit]
      by_cases hlt : value * base + d < limit
      · rw [← ih hlt]
        simp only [hlt, if_true]
      · simp only [hlt, if_false]
        refine iff_of_false nofun fun h => ?_
        -- what is read from here on can only be more
        have hpow := Nat.le_mul_of_pos_right (value * base + d) (Nat.pow_pos hbase (n := t.length))
        omega

def IsNumeral (base : Nat) (t : Text) : Prop := t ≠ [] ∧ ∀ c ∈ t, IsDigitIn base c

def IsSigned (t digits : Text) : Prop := t = digits ∨ t = '+' :: digits

theorem readNumber_eq_ok_iff (hbase : 0 < base) (hlimit : 0 < limit) :
    readNumber base limit t = .ok n ↔ ∃ digits, IsSigned t digits ∧ IsNumeral base digits ∧
      n = numeralValue base digits ∧ n < limit := by
  have hread : ∀ digits, readDigits base limit 0 digits = .ok n ↔
      (∀ c ∈ digits, IsDigitIn base c) ∧ n = numeralValue base digits ∧ n < limit := by
    intro digits
    rw [readDigits_eq_ok_iff hbase hlimit, Nat.zero_mul, Nat.zero_add]
  have hplus : ∀ digits, ¬IsNumeral base ('+' :: digits) := fun digits h =>
    not_isDigitIn_plus base (h.2 '+' List.mem_cons_self)
  unfold readNumber
  split
  · refine iff_of_false nofun ?_
    rintro ⟨digits, rfl | h, hdigits, -⟩
    · exact hdigits.1 rfl
    · cases h
  · refine iff_of_false nofun ?_
    rintro ⟨digits, rfl | h, hdigits, -⟩
    · exact hplus _ hdigits
    · exact hdigits.1 (List.cons.inj h).2.symm
  · rename_i digits hne
    rw [hread]
    constructor
    · intro h
      exact ⟨digits, .inr rfl, ⟨fun hnil => hne (hnil ▸ rfl), h.1⟩, h.2⟩
    · rintro ⟨digits', rfl | h, hdigits, hn⟩
      · exact absurd hdigits (hplus _)
      · obtain rfl := (List.cons.inj h).2
        exact ⟨hdigits.2, hn⟩
  · rename_i hnil hne hsigned
    rw [hread]
    constructor
    · intro h
      exact ⟨t, .inl rfl, ⟨hnil, h.1⟩, h.2⟩
    · rintro ⟨digits, rfl | h, hdigits, hn⟩
      · exact ⟨hdigits.2, hn⟩
      · exact absurd h (hsigned digits)

end Reading

end X86Encoding.Text
