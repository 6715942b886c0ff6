import X86Encoding.Pattern

/-!
Runs of bit patterns. A text is taken apart into runs of one character that go as far as they can,
and a pattern in normal form has no two runs of the same letter. In it the runs that are found in
bytes are those of the characters.
-/

set_option autoImplicit false

namespace X86Encoding

namespace Text

theorem exists_head_run (c : Char) (t : Text) :
    ∃ k rest, c :: t = List.replicate (k + 1) c ++ rest ∧ rest.head? ≠ some c := by
  induction t with
  | nil => exact ⟨0, [], rfl, nofun⟩
  | cons d t ih =>
    by_cases hd : d = c
    · subst hd
      obtain ⟨k, rest, ht, hrest⟩ := ih
      refine ⟨k + 1, rest, ?_, hrest⟩
      rw [List.replicate_succ, List.cons_append, ← ht]
    · exact ⟨0, d :: t, rfl, fun h => hd (Option.some.inj h)⟩

/-- A text is empty, or a run that goes no further in front of a text. -/
theorem runInduction {motive : Text → Prop} (nil : motive [])
    (run : ∀ c k rest, rest.head? ≠ some c → motive rest →
      motive (List.replicate (k + 1) c ++ rest)) (t : Text) : motive t := by
  match t with
  | [] => exact nil
  | c :: t =>
    obtain ⟨k, rest, ht, hrest⟩ := exists_head_run c t
    rw [ht]
    exact run c k rest hrest (runInduction nil run rest)
termination_by t.length
decreasing_by
  rw [ht, List.length_append, List.length_replicate]
  omega

end Text

namespace Pattern

theorem isLower_eq_false_of_isBit {c : Char} (h : isBit c = true) : Text.isLower c = false := by
  simp only [isBit, Bool.or_eq_true, beq_iff_eq] at h
  rcases h with rfl | rfl <;> rfl

theorem toNat_lt_of_isPatternChar {c : Char} (h : isPatternChar c = true) : c.toNat < 128 := by
  simp only [isPatternChar, isBit, Text.isLower, Bool.or_eq_true, Bool.and_eq_true, beq_iff_eq,
    decide_eq_true_eq] at h
  rcases h with (rfl | rfl) | ⟨-, hle⟩
  · decide
  · decide
  · exact Nat.lt_of_le_of_lt hle (by decide)

theorem bytes_cons (c : Char) (t : Text) :
    bytes (c :: t) = String.utf8EncodeChar c ++ bytes t := rfl

theorem utf8EncodeChar_of_lt {c : Char} (h : c.toNat < 128) :
    String.utf8EncodeChar c = [UInt8.ofNat c.toNat] := if_pos (Nat.le_of_lt_succ h)

theorem eq_of_head_utf8EncodeChar {c d : Char} (hc : c.toNat < 128)
    (h : (String.utf8EncodeChar d).head? = some (UInt8.ofNat c.toNat)) : d = c := by
  have hbyte : ∀ m, m < 256 → UInt8.ofNat m = UInt8.ofNat c.toNat → m = c.toNat := by
    intro m hm heq
    have htoNat := congrArg UInt8.toNat heq
    rwa [UInt8.toNat_ofNat', UInt8.toNat_ofNat', Nat.mod_eq_of_lt hm,
      Nat.mod_eq_of_lt (by omega)] at htoNat
  simp only [String.utf8EncodeChar] at h
  split at h
  · exact Char.ext (UInt32.toNat_inj.1 (hbyte d.val.toNat (by omega) (Option.some.inj h)))
  · split at h
    · have hfirst := hbyte _ (by omega) (Option.some.inj h)
      omega
    · split at h
      · have hfirst := hbyte _ (by omega) (Option.some.inj h)
        omega
      · have hfirst := hbyte _ (by omega) (Option.some.inj h)
        omega

theorem head?_bytes_ne {c : Char} (hc : c.toNat < 128) {rest : Text} (h : rest.head? ≠ some c) :
    (bytes rest).head? ≠ some (UInt8.ofNat c.toNat) := by
  cases rest with
  | nil => nofun
  | cons d rest =>
    intro hhead
    rw [bytes_cons, List.head?_append] at hhead
    cases hd : String.utf8EncodeChar d with
    | nil => exact String.utf8EncodeChar_ne_nil hd
    | cons b bs =>
      rw [hd] at hhead
      refine h (congrArg some (eq_of_head_utf8EncodeChar hc ?_))
      rw [hd]
      exact hhead

theorem bytes_replicate_append {c : Char} (hc : c.toNat < 128) (k : Nat) (rest : Text) :
    bytes (List.replicate k c ++ rest) =
      List.replicate k (UInt8.ofNat c.toNat) ++ bytes rest := by
  induction k with
  | zero => rfl
  | succ k ih =>
    rw [List.replicate_succ, List.cons_append, bytes_cons, ih, utf8EncodeChar_of_lt hc,
      List.replicate_succ]
    rfl

theorem headRun_of_isPatternChar {c : Char} (hc : isPatternChar c = true) (p : Text) (start : Nat)
    (rest : List UInt8) : headRun p start (UInt8.ofNat c.toNat) rest =
      .ok ⟨c, start, 1 + (rest.takeWhile (· == UInt8.ofNat c.toNat)).length⟩ := by
  have hchar : Char.ofNat (UInt8.ofNat c.toNat).toNat = c := by
    have hlt := toNat_lt_of_isPatternChar hc
    rw [UInt8.toNat_ofNat', Nat.mod_eq_of_lt (by omega), Char.ofNat_toNat]
  simp only [headRun, hchar, hc, if_true]

/-- A run of the text is found as one run in its bytes. -/
theorem runsFrom_run (p : Text) (start : Nat) {c : Char} (hc : isPatternChar c = true) (k : Nat)
    {rest : Text} (hrest : rest.head? ≠ some c) :
    runsFrom p start (bytes (List.replicate (k + 1) c ++ rest)) =
      .ok ⟨c, start, k + 1⟩ :: runsFrom p (start + (k + 1)) (bytes rest) := by
  have hlt := toNat_lt_of_isPatternChar hc
  have hhead := head?_bytes_ne hlt hrest
  have hall : ∀ b ∈ List.replicate k (UInt8.ofNat c.toNat), (b == UInt8.ofNat c.toNat) = true :=
    fun b hb => beq_iff_eq.2 (List.eq_of_mem_replicate hb)
  have hstop : ∀ b bs, bytes rest = b :: bs → ¬(b == UInt8.ofNat c.toNat) = true := by
    intro b bs hbytes hb
    rw [hbytes, beq_iff_eq.1 hb] at hhead
    exact hhead rfl
  have htake : (bytes rest).takeWhile (· == UInt8.ofNat c.toNat) = [] := by
    cases hbytes : bytes rest with
    | nil => rfl
    | cons b bs => exact List.takeWhile_cons_of_neg (hstop b bs hbytes)
  have hdrop : (bytes rest).dropWhile (· == UInt8.ofNat c.toNat) = bytes rest := by
    cases hbytes : bytes rest with
    | nil => rfl
    | cons b bs => exact List.dropWhile_cons_of_neg (hstop b bs hbytes)
  rw [bytes_replicate_append hlt, List.replicate_succ, List.cons_append, runsFrom,
    headRun_of_isPatternChar hc, List.takeWhile_append_of_pos hall,
    List.dropWhile_append_of_pos hall, htake, hdrop, List.append_nil, List.length_replicate,
    Nat.add_comm 1 k]
  rfl

def Apart (s t : Text) : Prop := ∀ c ∈ s, Text.isLower c = true → c ∉ t

theorem apart_nil (t : Text) : Apart [] t := fun _ hc => absurd hc List.not_mem_nil

section

variable {s t u : Text} {c : Char}

theorem Apart.not_mem (h : Apart s t) (hc : c ∈ t) (hlower : Text.isLower c = true) : c ∉ s :=
  fun hs => h c hs hlower hc

theorem Apart.count_left (h : Apart s t) (hc : c ∈ s) (hlower : Text.isLower c = true) :
    (s ++ t).count c = s.count c := by
  rw [List.count_append, List.count_eq_zero.2 (h c hc hlower), Nat.add_zero]

theorem Apart.count_right (h : Apart s t) (hc : c ∈ t) (hlower : Text.isLower c = true) :
    (s ++ t).count c = t.count c := by
  rw [List.count_append, List.count_eq_zero.2 (h.not_mem hc hlower), Nat.zero_add]

theorem Apart.left (h : Apart s (t ++ u)) : Apart s t :=
  fun d hd hlower hmem => h d hd hlower (List.mem_append_left u hmem)

theorem Apart.append (h : Apart s (t ++ u)) (htu : Apart t u) : Apart (s ++ t) u := by
  intro d hd hlower hmem
  rcases List.mem_append.1 hd with hd | hd
  · exact h d hd hlower (List.mem_append_right t hmem)
  · exact htu d hd hlower hmem

end

/-- Digits and letters, where no letter comes back after another character. -/
structure IsNormal (n : Text) : Prop where
  isPatternChar : ∀ c ∈ n, isPatternChar c = true
  not_mem : ∀ before c d after, n = before ++ c :: d :: after →
    Text.isLower c = true → d ≠ c → c ∉ after

theorem IsNormal.of_append {s t : Text} (h : IsNormal (s ++ t)) : IsNormal t where
  isPatternChar c hc := h.isPatternChar c (List.mem_append_right s hc)
  not_mem before c d after ht :=
    h.not_mem (s ++ before) c d after (by rw [ht, List.append_assoc])

theorem IsNormal.apart_rest {c : Char} {k : Nat} {rest : Text}
    (h : IsNormal (List.replicate (k + 1) c ++ rest)) (hrest : rest.head? ≠ some c) :
    Apart (List.replicate (k + 1) c) rest := by
  intro d hd hlower
  obtain rfl := List.eq_of_mem_replicate hd
  cases rest with
  | nil => exact List.not_mem_nil
  | cons e after =>
    have he : e ≠ d := fun he => hrest (congrArg some he)
    have hafter : d ∉ after :=
      h.not_mem (List.replicate k d) d e after
        (by rw [List.replicate_succ', List.append_assoc, List.singleton_append]) hlower he
    exact List.not_mem_cons_of_ne_of_not_mem (Ne.symm he) hafter

end Pattern
end X86Encoding
