import X86Encoding.Proofs.Pattern.Normal

/-!
The value of a bit pattern. The fold over the runs keeps a number that spells the characters read
so far, one bit for each of them. What a letter spells depends on its number of places, which is
known only where the whole run is, so the invariant is about runs and not about characters.
-/

set_option autoImplicit false

namespace X86Encoding

theorem Bits.lt_of_make {value : UInt64} {length : UInt8} {w : Bits}
    (h : Bits.make value length = .ok w) : w.value.toNat < 2 ^ w.length.toNat := by
  simp only [Bits.make] at h
  split at h
  · cases h
  · split at h
    next hlt =>
      obtain rfl := Except.ok.inj h
      exact hlt
    next => cases h

namespace Pattern

theorem testBit_join_of_le {high low k : Nat} (hlow : low < 2 ^ k) (i : Nat) :
    (high * 2 ^ k ||| low).testBit (k + i) = high.testBit i := by
  have hbeyond : low.testBit (k + i) = false :=
    Nat.testBit_lt_two_pow (Nat.lt_of_lt_of_le hlow (Nat.pow_le_pow_right (by decide) (by omega)))
  rw [Nat.testBit_or, Nat.testBit_mul_two_pow, hbeyond, Nat.add_sub_cancel_left]
  simp

theorem testBit_join_of_lt {k i : Nat} (hi : i < k) (high low : Nat) :
    (high * 2 ^ k ||| low).testBit i = low.testBit i := by
  rw [Nat.testBit_or, Nat.testBit_mul_two_pow, decide_eq_false (by omega)]
  rfl

theorem join_lt {high low n k : Nat} (hhigh : high < 2 ^ n) (hlow : low < 2 ^ k) :
    high * 2 ^ k ||| low < 2 ^ (n + k) := by
  have hshifted : high * 2 ^ k < 2 ^ (n + k) := by
    rw [Nat.pow_add]
    exact Nat.mul_lt_mul_of_pos_right hhigh (Nat.two_pow_pos k)
  exact Nat.or_lt_two_pow hshifted
    (Nat.lt_of_lt_of_le hlow (Nat.pow_le_pow_right (by decide) (by omega)))

/-! ## What a text spells -/

def Binds (resolve : Char → Option Bits) (n : Text) : Prop :=
  ∀ c ∈ n, Text.isLower c = true → ∃ w, resolve c = some w ∧ w.length.toNat = n.count c

/-- The bits of a number, from the highest of as many as there are characters, are those that the
characters stand for: the digit itself, and at the places of a letter the bits of its value. -/
structure Spells (resolve : Char → Option Bits) (n : Text) (value : Nat) : Prop where
  digit : ∀ j c, n[j]? = some c → isBit c = true →
    value.testBit (n.length - 1 - j) = (c == '1')
  letter : ∀ j c w, n[j]? = some c → Text.isLower c = true → resolve c = some w →
    value.testBit (n.length - 1 - j) =
      w.value.toNat.testBit (n.count c - 1 - (n.take j).count c)

section

variable {resolve : Char → Option Bits} {s t : Text}

theorem binds_append (hapart : Apart s t) :
    Binds resolve (s ++ t) ↔ Binds resolve s ∧ Binds resolve t := by
  constructor
  · intro h
    refine ⟨fun c hc hlower => ?_, fun c hc hlower => ?_⟩
    · rw [← hapart.count_left hc hlower]
      exact h c (List.mem_append_left t hc) hlower
    · rw [← hapart.count_right hc hlower]
      exact h c (List.mem_append_right s hc) hlower
  · rintro ⟨hs, ht⟩ c hc hlower
    rcases List.mem_append.1 hc with hc | hc
    · rw [hapart.count_left hc hlower]
      exact hs c hc hlower
    · rw [hapart.count_right hc hlower]
      exact ht c hc hlower

/-- Texts without a common letter spell their bits one behind the other. -/
theorem Spells.append {high low : Nat} (hs : Spells resolve s high) (ht : Spells resolve t low)
    (hlow : low < 2 ^ t.length) (hapart : Apart s t) :
    Spells resolve (s ++ t) (high * 2 ^ t.length ||| low) := by
  have hfirst : ∀ j, j < s.length → (high * 2 ^ t.length ||| low).testBit
      ((s ++ t).length - 1 - j) = high.testBit (s.length - 1 - j) := by
    intro j hj
    have hplace : (s ++ t).length - 1 - j = t.length + (s.length - 1 - j) := by
      rw [List.length_append]
      omega
    rw [hplace, testBit_join_of_le hlow]
  have hsecond : ∀ j c, s.length ≤ j → t[j - s.length]? = some c →
      (high * 2 ^ t.length ||| low).testBit ((s ++ t).length - 1 - j) =
        low.testBit (t.length - 1 - (j - s.length)) := by
    intro j c hj hc
    have hlt := (List.getElem?_eq_some_iff.1 hc).1
    have hplace : (s ++ t).length - 1 - j = t.length - 1 - (j - s.length) := by
      rw [List.length_append]
      omega
    rw [hplace, testBit_join_of_lt (by omega)]
  refine ⟨fun j c hc hbit => ?_, fun j c w hc hlower hw => ?_⟩
  · rcases Nat.lt_or_ge j s.length with hj | hj
    · rw [List.getElem?_append_left hj] at hc
      rw [hfirst j hj, hs.digit j c hc hbit]
    · rw [List.getElem?_append_right hj] at hc
      rw [hsecond j c hj hc, ht.digit _ c hc hbit]
  · rcases Nat.lt_or_ge j s.length with hj | hj
    · rw [List.getElem?_append_left hj] at hc
      rw [hfirst j hj, hs.letter j c w hc hlower hw,
        hapart.count_left (List.mem_of_getElem? hc) hlower,
        List.take_append_of_le_length (Nat.le_of_lt hj)]
    · rw [List.getElem?_append_right hj] at hc
      have hmem := List.mem_of_getElem? hc
      have hnone : s.count c = 0 := List.count_eq_zero.2 (hapart.not_mem hmem hlower)
      rw [hsecond j c hj hc, ht.letter _ c w hc hlower hw, hapart.count_right hmem hlower,
        List.take_append, List.take_of_length_le hj, List.count_append, hnone, Nat.zero_add]

end

/-! ## One run -/

section

variable {resolve : Char → Option Bits} {c : Char} {k : Nat}

theorem binds_replicate : Binds resolve (List.replicate (k + 1) c) ↔
    (Text.isLower c = true → ∃ w, resolve c = some w ∧ w.length.toNat = k + 1) := by
  constructor
  · intro h hlower
    have hw := h c (List.mem_replicate.2 ⟨Nat.succ_ne_zero k, rfl⟩) hlower
    rwa [List.count_replicate_self] at hw
  · intro h d hd hlower
    obtain rfl := List.eq_of_mem_replicate hd
    rw [List.count_replicate_self]
    exact h hlower

/-- A digit gives its bit to every place of the run, a letter the bits of its value in order. -/
theorem spells_replicate {value : Nat}
    (hdigit : isBit c = true → ∀ i, i < k → value.testBit i = (c == '1'))
    (hletter : Text.isLower c = true → ∀ w, resolve c = some w →
      ∀ i, i < k → value.testBit i = w.value.toNat.testBit i) :
    Spells resolve (List.replicate k c) value := by
  have hplace : ∀ j d, (List.replicate k c)[j]? = some d → j < k ∧ d = c := by
    intro j d hd
    rw [List.getElem?_replicate] at hd
    split at hd
    next hj => exact ⟨hj, (Option.some.inj hd).symm⟩
    next => cases hd
  refine ⟨fun j d hd hbit => ?_, fun j d w hd hlower hw => ?_⟩
  · obtain ⟨hj, rfl⟩ := hplace j d hd
    rw [List.length_replicate]
    exact hdigit hbit _ (by omega)
  · obtain ⟨hj, rfl⟩ := hplace j d hd
    rw [List.length_replicate, List.count_replicate_self, List.take_replicate,
      List.count_replicate_self, Nat.min_eq_left (Nat.le_of_lt hj)]
    exact hletter hlower w hw _ (by omega)

theorem exists_runBits_iff (hc : isPatternChar c = true) (start : Nat) :
    (∃ bits, runBits resolve ⟨c, start, k + 1⟩ = .ok bits) ↔
      Binds resolve (List.replicate (k + 1) c) := by
  rw [binds_replicate]
  cases hbit : isBit c with
  | true =>
    refine iff_of_true ⟨_, if_pos hbit⟩ fun hlower => ?_
    rw [isLower_eq_false_of_isBit hbit] at hlower
    cases hlower
  | false =>
    have hlower : Text.isLower c = true := by simpa [isPatternChar, hbit] using hc
    cases hw : resolve c with
    | none => simp [runBits, BitRun.isConstant, hbit, hw, hlower]
    | some w =>
      by_cases hlength : w.length.toNat = k + 1 <;>
        simp [runBits, BitRun.isConstant, hbit, hw, hlower, hlength]

theorem runBits_error {run : BitRun} {e : EncodingError} (h : runBits resolve run = .error e) :
    ∃ fault, e = .invalidOperation fault := by
  simp only [runBits] at h
  split at h
  · cases h
  · split at h
    · exact ⟨_, (Except.error.inj h).symm⟩
    · split at h
      · cases h
      · exact ⟨_, (Except.error.inj h).symm⟩

theorem toNat_ones (hk : k ≤ Bits.maxLength) : (UInt64.ofNat (2 ^ k - 1)).toNat = 2 ^ k - 1 := by
  have hlt : 2 ^ k - 1 < 2 ^ k := Nat.sub_lt (Nat.two_pow_pos k) Nat.one_pos
  have hle : 2 ^ k ≤ 2 ^ 64 := Nat.pow_le_pow_right (by decide) hk
  exact UInt64.toNat_ofNat_of_lt' (Nat.lt_of_lt_of_le hlt hle)

theorem runBits_spells
    (hfits : ∀ c w, resolve c = some w → w.value.toNat < 2 ^ w.length.toNat)
    (hk : k ≤ Bits.maxLength) {start : Nat} {bits : UInt64}
    (h : runBits resolve ⟨c, start, k⟩ = .ok bits) :
    bits.toNat < 2 ^ k ∧ Spells resolve (List.replicate k c) bits.toNat := by
  simp only [runBits, BitRun.isConstant] at h
  split at h
  next hbit =>
    obtain rfl := Except.ok.inj h
    have hletter : Text.isLower c ≠ true := Bool.eq_false_iff.1 (isLower_eq_false_of_isBit hbit)
    cases hone : c == '1' with
    | true =>
      rw [if_pos rfl, toNat_ones hk]
      refine ⟨Nat.sub_lt (Nat.two_pow_pos k) Nat.one_pos, spells_replicate (fun _ i hi => ?_) ?_⟩
      · rw [Nat.testBit_two_pow_sub_one, decide_eq_true hi, hone]
      · exact fun hlower => absurd hlower hletter
    | false =>
      refine ⟨Nat.two_pow_pos k, spells_replicate (fun _ i _ => ?_) ?_⟩
      · exact (Nat.zero_testBit i).trans hone.symm
      · exact fun hlower => absurd hlower hletter
  next hbit =>
    split at h
    next => cases h
    next w hw =>
      split at h
      next hlength =>
        obtain rfl := Except.ok.inj h
        refine ⟨hlength ▸ hfits c w hw, spells_replicate (fun hc => absurd hc hbit) ?_⟩
        intro _ w' hw' i _
        rw [Option.some.inj (hw.symm.trans hw')]
      next => cases h

end

/-! ## The fold over the runs -/

/-- A value with its width, where the width counts the characters of a text and the text spells
the value. -/
structure Holds (resolve : Char → Option Bits) (s : Text) (acc : UInt64 × Nat) : Prop where
  length : acc.2 = s.length
  lt : acc.1.toNat < 2 ^ s.length
  spells : Spells resolve s acc.1.toNat

section

variable {resolve : Char → Option Bits}

theorem appendRun_eq_ok_iff {acc acc' : UInt64 × Nat} {run : BitRun} :
    appendRun resolve acc run = .ok acc' ↔ acc.2 + run.length ≤ Bits.maxLength ∧
      ∃ bits, runBits resolve run = .ok bits ∧
        acc' = (UInt64.ofNat (acc.1.toNat * 2 ^ run.length) ||| bits, acc.2 + run.length) := by
  rw [appendRun]
  split
  next hwide => exact iff_of_false nofun fun h => absurd h.1 (Nat.not_le_of_lt hwide)
  next hwide =>
    cases hbits : runBits resolve run with
    | error e => exact iff_of_false nofun fun ⟨_, bits, hok, _⟩ => nomatch hok
    | ok bits =>
      constructor
      · intro h
        exact ⟨Nat.le_of_not_lt hwide, bits, rfl, (Except.ok.inj h).symm⟩
      · rintro ⟨-, bits', hbits', rfl⟩
        rw [Except.ok.inj hbits']

theorem appendRun_error {acc : UInt64 × Nat} {run : BitRun} {e : EncodingError}
    (h : appendRun resolve acc run = .error e) : ∃ fault, e = .invalidOperation fault := by
  simp only [appendRun] at h
  split at h
  · exact ⟨_, (Except.error.inj h).symm⟩
  · split at h
    next he =>
      obtain rfl := Except.error.inj h
      exact runBits_error he
    · cases h

theorem Holds.appendRun
    (hfits : ∀ c w, resolve c = some w → w.value.toNat < 2 ^ w.length.toNat)
    {s : Text} {acc acc' : UInt64 × Nat} (hacc : Holds resolve s acc) {c : Char} {start k : Nat}
    (hapart : Apart s (List.replicate k c))
    (h : appendRun resolve acc ⟨c, start, k⟩ = .ok acc') :
    Holds resolve (s ++ List.replicate k c) acc' := by
  obtain ⟨hwidth, bits, hbits, rfl⟩ := appendRun_eq_ok_iff.1 h
  rw [hacc.length] at hwidth
  obtain ⟨hlt, hspells⟩ := runBits_spells hfits (Nat.le_trans (Nat.le_add_left _ _) hwidth) hbits
  -- the width check keeps the shifted bits inside the word, also where the run fills it
  have hjoined : (UInt64.ofNat (acc.1.toNat * 2 ^ k) ||| bits).toNat =
      acc.1.toNat * 2 ^ k ||| bits.toNat := by
    rw [UInt64.toNat_or, UInt64.toNat_ofNat_of_lt']
    calc acc.1.toNat * 2 ^ k < 2 ^ s.length * 2 ^ k :=
          Nat.mul_lt_mul_of_pos_right hacc.lt (Nat.two_pow_pos k)
      _ = 2 ^ (s.length + k) := (Nat.pow_add 2 s.length k).symm
      _ ≤ 2 ^ 64 := Nat.pow_le_pow_right (by decide) hwidth
  refine ⟨?_, ?_, ?_⟩
  · rw [List.length_append, List.length_replicate, hacc.length]
  · rw [hjoined, List.length_append, List.length_replicate]
    exact join_lt hacc.lt hlt
  · have happend := hacc.spells.append hspells (by rwa [List.length_replicate]) hapart
    rwa [List.length_replicate, ← hjoined] at happend

theorem appendRuns_run (p : Text) (acc : UInt64 × Nat) (start : Nat) {c : Char}
    (hc : isPatternChar c = true) (k : Nat) {rest : Text} (hrest : rest.head? ≠ some c) :
    appendRuns resolve acc (runsFrom p start (bytes (List.replicate (k + 1) c ++ rest))) =
      match appendRun resolve acc ⟨c, start, k + 1⟩ with
      | .error e => .error e
      | .ok acc' => appendRuns resolve acc' (runsFrom p (start + (k + 1)) (bytes rest)) := by
  rw [runsFrom_run p start hc k hrest]
  rfl

@[simp] theorem appendRuns_nil (p : Text) (acc : UInt64 × Nat) (start : Nat) :
    appendRuns resolve acc (runsFrom p start (bytes [])) = .ok acc := by
  rw [show bytes [] = [] from rfl, runsFrom, appendRuns]

/-- The fold succeeds if the width suffices and every letter is bound to as many bits as it has
places. -/
theorem exists_appendRuns_iff {n : Text} (hn : IsNormal n) (p : Text) (start : Nat)
    {acc : UInt64 × Nat} (hacc : acc.2 ≤ Bits.maxLength) :
    (∃ acc', appendRuns resolve acc (runsFrom p start (bytes n)) = .ok acc') ↔
      acc.2 + n.length ≤ Bits.maxLength ∧ Binds resolve n := by
  induction n using Text.runInduction generalizing start acc with
  | nil => exact iff_of_true ⟨acc, appendRuns_nil p acc start⟩ ⟨hacc, nofun⟩
  | run c k rest hrest ih =>
    have hc := hn.isPatternChar c (by simp)
    rw [appendRuns_run p acc start hc k hrest, binds_append (hn.apart_rest hrest),
      ← exists_runBits_iff hc start, List.length_append, List.length_replicate]
    cases hrun : appendRun resolve acc ⟨c, start, k + 1⟩ with
    | error e =>
      refine iff_of_false nofun ?_
      rintro ⟨hwidth, ⟨bits, hbits⟩, -⟩
      have hok := appendRun_eq_ok_iff.2 ⟨show acc.2 + (k + 1) ≤ _ by omega, bits, hbits, rfl⟩
      cases hrun.symm.trans hok
    | ok acc' =>
      obtain ⟨hwidth, bits, hbits, rfl⟩ := appendRun_eq_ok_iff.1 hrun
      refine (ih hn.of_append (start + (k + 1)) hwidth).trans ?_
      rw [Nat.add_assoc]
      exact and_congr_right fun _ => (and_iff_right ⟨bits, hbits⟩).symm

theorem appendRuns_error {n : Text} (hn : IsNormal n) {p : Text} {start : Nat}
    {acc : UInt64 × Nat} {e : EncodingError}
    (h : appendRuns resolve acc (runsFrom p start (bytes n)) = .error e) :
    ∃ fault, e = .invalidOperation fault := by
  induction n using Text.runInduction generalizing start acc with
  | nil => cases (appendRuns_nil p acc start).symm.trans h
  | run c k rest hrest ih =>
    rw [appendRuns_run p acc start (hn.isPatternChar c (by simp)) k hrest] at h
    split at h
    next hrun =>
      obtain rfl := Except.error.inj h
      exact appendRun_error hrun
    next => exact ih hn.of_append h

theorem Holds.appendRuns
    (hfits : ∀ c w, resolve c = some w → w.value.toNat < 2 ^ w.length.toNat)
    {t : Text} (ht : IsNormal t) {s : Text} (hapart : Apart s t) {p : Text} {start : Nat}
    {acc acc' : UInt64 × Nat} (hacc : Holds resolve s acc)
    (h : appendRuns resolve acc (runsFrom p start (bytes t)) = .ok acc') :
    Holds resolve (s ++ t) acc' := by
  induction t using Text.runInduction generalizing s start acc with
  | nil =>
    obtain rfl := Except.ok.inj ((appendRuns_nil p acc start).symm.trans h)
    rwa [List.append_nil]
  | run c k rest hrest ih =>
    rw [appendRuns_run p acc start (ht.isPatternChar c (by simp)) k hrest] at h
    split at h
    next => cases h
    next mid hrun =>
      -- the run joins what was read, and its letter does not come back in the rest
      have hmid := hacc.appendRun hfits hapart.left hrun
      rw [← List.append_assoc]
      exact ih ht.of_append (hapart.append (ht.apart_rest hrest)) hmid h

/-! ## The value of a pattern -/

theorem holds_start : Holds resolve [] (0, 0) := ⟨rfl, by decide, nofun, nofun⟩

theorem evaluate_of_error {p : Text} {e : EncodingError} (h : normalize p = .error e) :
    evaluate p resolve = .error e := by
  rw [evaluate, h]

theorem evaluate_of_ok {p n : Text} (h : normalize p = .ok n) :
    evaluate p resolve =
      (appendRuns resolve (0, 0) (runs n)).map fun acc => ⟨acc.1, UInt8.ofNat acc.2⟩ := by
  simp only [evaluate, h]
  cases appendRuns resolve (0, 0) (runs n) <;> rfl

theorem exists_evaluate_iff {p n : Text} (h : normalize p = .ok n) :
    (∃ v, evaluate p resolve = .ok v) ↔ n.length ≤ Bits.maxLength ∧ Binds resolve n := by
  have hruns : (∃ acc, appendRuns resolve (0, 0) (runs n) = .ok acc) ↔
      0 + n.length ≤ Bits.maxLength ∧ Binds resolve n :=
    exists_appendRuns_iff (isNormal_of_normalize h) n 0 (Nat.zero_le _)
  rw [Nat.zero_add] at hruns
  rw [← hruns, evaluate_of_ok h]
  cases appendRuns resolve (0, 0) (runs n) with
  | error e => exact iff_of_false nofun nofun
  | ok acc => exact iff_of_true ⟨_, rfl⟩ ⟨acc, rfl⟩

theorem spells_of_evaluate
    (hfits : ∀ c w, resolve c = some w → w.value.toNat < 2 ^ w.length.toNat)
    {p n : Text} (hn : normalize p = .ok n) {v : Bits} (h : evaluate p resolve = .ok v) :
    v.length.toNat = n.length ∧ v.value.toNat < 2 ^ n.length ∧
      Spells resolve n v.value.toNat := by
  have hwidth := ((exists_evaluate_iff hn).1 ⟨v, h⟩).1
  rw [evaluate_of_ok hn] at h
  cases hruns : appendRuns resolve (0, 0) (runs n) with
  | error e =>
    rw [hruns] at h
    cases h
  | ok acc =>
    rw [hruns] at h
    obtain rfl := Except.ok.inj h
    have hacc := holds_start.appendRuns hfits (isNormal_of_normalize hn) (apart_nil n) hruns
    refine ⟨?_, hacc.lt, hacc.spells⟩
    rw [List.nil_append] at hacc
    have hbound : n.length < UInt8.size := Nat.lt_of_le_of_lt hwidth (by decide)
    exact (congrArg (fun m => (UInt8.ofNat m).toNat) hacc.length).trans
      (UInt8.toNat_ofNat_of_lt' hbound)

theorem evaluate_error_of_ok {p n : Text} (hn : normalize p = .ok n) {e : EncodingError}
    (h : evaluate p resolve = .error e) : ∃ fault, e = .invalidOperation fault := by
  rw [evaluate_of_ok hn] at h
  cases hruns : appendRuns resolve (0, 0) (runs n) with
  | error e' =>
    rw [hruns] at h
    obtain rfl := Except.error.inj h
    exact appendRuns_error (isNormal_of_normalize hn) hruns
  | ok acc =>
    rw [hruns] at h
    cases h

/-- A pattern has a value if it has a normal form of at most 64 characters whose letters are bound
to as many bits as they have places. The value is as wide as the normal form, which spells it bit
by bit. A failure that is not one of the normal form is an invalid operation. -/
theorem evaluate_spells
    (hmade : ∀ c w, resolve c = some w → ∃ value length, Bits.make value length = .ok w)
    (p : Text) :
    ((∃ v, evaluate p resolve = .ok v) ↔
      ∃ n, normalize p = .ok n ∧ n.length ≤ Bits.maxLength ∧ Binds resolve n) ∧
    (∀ v n, evaluate p resolve = .ok v → normalize p = .ok n →
      v.length.toNat = n.length ∧ v.value.toNat < 2 ^ n.length ∧
        Spells resolve n v.value.toNat) ∧
    ∀ e, evaluate p resolve = .error e →
      (∃ fault, normalize p = .error (.format fault p) ∧ e = .format fault p) ∨
        ∃ n fault, normalize p = .ok n ∧ e = .invalidOperation fault := by
  have hfits : ∀ c w, resolve c = some w → w.value.toNat < 2 ^ w.length.toNat := by
    intro c w hw
    obtain ⟨value, length, hmake⟩ := hmade c w hw
    exact Bits.lt_of_make hmake
  refine ⟨⟨?_, ?_⟩, fun v n h hn => spells_of_evaluate hfits hn h, ?_⟩
  · rintro ⟨v, hv⟩
    cases hp : normalize p with
    | error e => cases (evaluate_of_error hp).symm.trans hv
    | ok n => exact ⟨n, rfl, (exists_evaluate_iff hp).1 ⟨v, hv⟩⟩
  · rintro ⟨n, hn, hfits⟩
    exact (exists_evaluate_iff hn).2 hfits
  · intro e he
    cases hp : normalize p with
    | error e' =>
      obtain rfl := Except.error.inj ((evaluate_of_error hp).symm.trans he)
      obtain ⟨fault, rfl⟩ := normalize_eq_error hp
      exact .inl ⟨fault, rfl, rfl⟩
    | ok n =>
      obtain ⟨fault, rfl⟩ := evaluate_error_of_ok hp he
      exact .inr ⟨n, fault, rfl, rfl⟩

theorem evaluate_spells_registers :
    let resolve : Char → Option Bits := fun c =>
      if c = 'r' then some ⟨2, 3⟩ else if c = 'b' then some ⟨5, 3⟩ else none
    ∃ v, evaluate "11_rrr_bbb".toList resolve = .ok v ∧ v.length.toNat = 8 ∧
      v.value.toNat < 2 ^ 8 ∧ v.value.toNat.testBit 7 = true ∧ v.value.toNat.testBit 5 = false ∧
      v.value.toNat.testBit 4 = true ∧ v.value.toNat.testBit 3 = false := by
  intro resolve
  have hmade : ∀ c w, resolve c = some w → ∃ value length, Bits.make value length = .ok w := by
    intro c w hw
    simp only [resolve] at hw
    split at hw
    · obtain rfl := Option.some.inj hw
      exact ⟨2, 3, rfl⟩
    · split at hw
      · obtain rfl := Option.some.inj hw
        exact ⟨5, 3, rfl⟩
      · cases hw
  have hn : normalize "11_rrr_bbb".toList = .ok "11rrrbbb".toList := rfl
  have hbinds : Binds resolve "11rrrbbb".toList := by
    intro c hc hlower
    have hletters : "11rrrbbb".toList.all (fun d => !Text.isLower d || d == 'r' || d == 'b') :=
      rfl
    have hletter := List.all_eq_true.1 hletters c hc
    simp only [hlower, Bool.not_true, Bool.false_or, Bool.or_eq_true, beq_iff_eq] at hletter
    rcases hletter with rfl | rfl
    · exact ⟨⟨2, 3⟩, rfl, rfl⟩
    · exact ⟨⟨5, 3⟩, rfl, rfl⟩
  obtain ⟨hexists, hspells, -⟩ := evaluate_spells hmade "11_rrr_bbb".toList
  obtain ⟨v, hv⟩ := hexists.2 ⟨_, hn, by decide, hbinds⟩
  obtain ⟨hlength, hlt, hbits⟩ := hspells v _ hv hn
  exact ⟨v, hv, hlength, hlt, hbits.digit 0 '1' rfl rfl, hbits.letter 2 'r' ⟨2, 3⟩ rfl rfl rfl,
    hbits.letter 3 'r' ⟨2, 3⟩ rfl rfl rfl, hbits.letter 4 'r' ⟨2, 3⟩ rfl rfl rfl⟩

end

end Pattern
end X86Encoding
