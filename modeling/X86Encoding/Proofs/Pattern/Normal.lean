import X86Encoding.Proofs.Pattern.Runs

/-!
Normal forms of bit patterns. The reader remembers the letters that it has seen and the last
character only; what it accepts is said by places: those of each letter follow one another.
-/

set_option autoImplicit false

namespace X86Encoding.Pattern

/-- Between two places of the character there is no other one. -/
def Contiguous (c : Char) (n : Text) : Prop :=
  ∀ i j k : Nat, i ≤ j → j ≤ k → n[i]? = some c → n[k]? = some c → n[j]? = some c

theorem Contiguous.of_append {c : Char} {s t : Text} (h : Contiguous c (s ++ t)) :
    Contiguous c s := by
  intro i j k hij hjk hi hk
  have hlt := (List.getElem?_eq_some_iff.1 hk).1
  have hj := h i j k hij hjk
  rw [List.getElem?_append_left (show i < s.length by omega), List.getElem?_append_left hlt,
    List.getElem?_append_left (show j < s.length by omega)] at hj
  exact hj hi hk

theorem contiguous_concat_iff {c d : Char} {s : Text} (hs : Contiguous d s) :
    Contiguous d (s ++ [c]) ↔ (c = d → d ∈ s → s.getLast? = some d) := by
  constructor
  · intro h hcd hmem
    obtain ⟨i, hi⟩ := List.mem_iff_getElem?.1 hmem
    have hlt := (List.getElem?_eq_some_iff.1 hi).1
    have hlast := h i (s.length - 1) s.length (by omega) (by omega)
      (by rw [List.getElem?_append_left hlt, hi]) (by rw [List.getElem?_concat_length, hcd])
    rwa [List.getElem?_append_left (by omega), ← List.getLast?_eq_getElem?] at hlast
  · intro h i j k hij hjk hi hk
    rcases Nat.lt_trichotomy k s.length with hlt | heq | hgt
    · rw [List.getElem?_append_left (by omega)] at hi hk ⊢
      exact hs i j k hij hjk hi hk
    · subst heq
      rw [List.getElem?_concat_length] at hk
      rcases Nat.lt_or_ge j s.length with hj | hj
      · -- the last character of the text is one of its places, and the last one
        rw [List.getElem?_append_left (by omega)] at hi ⊢
        have hlast := h (Option.some.inj hk) (List.mem_of_getElem? hi)
        rw [List.getLast?_eq_getElem?] at hlast
        exact hs i j (s.length - 1) hij (by omega) hi hlast
      · rw [Nat.le_antisymm hjk hj, List.getElem?_concat_length, hk]
    · rw [List.getElem?_eq_none (by simp; omega)] at hk
      cases hk

/-- Digits and letters, where the places of each letter follow one another. -/
structure IsPattern (n : Text) : Prop where
  isPatternChar : ∀ c ∈ n, isPatternChar c = true
  contiguous : ∀ c, Text.isLower c = true → Contiguous c n

theorem isPattern_nil : IsPattern [] := ⟨nofun, fun c _ i j k _ _ hi _ => by simp at hi⟩

theorem IsPattern.of_append {s t : Text} (h : IsPattern (s ++ t)) : IsPattern s where
  isPatternChar c hc := h.isPatternChar c (List.mem_append_left t hc)
  contiguous c hc := (h.contiguous c hc).of_append

theorem IsPattern.concat_iff {c : Char} {s : Text} (hs : IsPattern s) :
    IsPattern (s ++ [c]) ↔ Pattern.isPatternChar c = true ∧
      (Text.isLower c = true → c ∈ s → s.getLast? = some c) := by
  constructor
  · intro h
    exact ⟨h.isPatternChar c (by simp), fun hc =>
      (contiguous_concat_iff (hs.contiguous c hc)).1 (h.contiguous c hc) rfl⟩
  · intro ⟨hchar, hlast⟩
    constructor
    · intro d hd
      rcases List.mem_append.1 hd with hd | hd
      · exact hs.isPatternChar d hd
      · rwa [List.mem_singleton.1 hd]
    · intro d hd
      rw [contiguous_concat_iff (hs.contiguous d hd)]
      intro hcd
      subst hcd
      exact hlast hd

theorem firstFault_cons_eq_none_iff {seen : List Char} {last : Option Char} {c : Char} {t : Text} :
    firstFault seen last (c :: t) = none ↔
      isPatternChar c = true ∧ (Text.isLower c = true → c ∈ seen → last = some c) ∧
        firstFault (if Text.isLower c then c :: seen else seen) (some c) t = none := by
  rw [firstFault]
  cases hlower : Text.isLower c with
  | false => cases hbit : isBit c <;> simp [isPatternChar, hlower, hbit]
  | true =>
    by_cases hback : c ∈ seen ∧ last ≠ some c
    · simp [isPatternChar, hlower, hback]
    · have hlast : c ∈ seen → last = some c := fun hseen =>
        Classical.byContradiction fun hne => hback ⟨hseen, hne⟩
      rw [if_pos rfl, if_neg (by simpa using hlast)]
      exact ⟨fun h => ⟨by simp [isPatternChar, hlower], fun _ => hlast, h⟩, fun h => h.2.2⟩

/-- Behind a text whose letters were seen, the reader finds no fault if the whole is a pattern. -/
theorem firstFault_eq_none_iff_isPattern {seen : List Char} {s t : Text} (hs : IsPattern s)
    (hseen : ∀ c, Text.isLower c = true → (c ∈ seen ↔ c ∈ s)) :
    firstFault seen s.getLast? t = none ↔ IsPattern (s ++ t) := by
  induction t generalizing seen s with
  | nil => simp [firstFault, hs]
  | cons c t ih =>
    have hsplit : s ++ c :: t = (s ++ [c]) ++ t := by simp
    have hstep : IsPattern (s ++ [c]) ↔ isPatternChar c = true ∧
        (Text.isLower c = true → c ∈ seen → s.getLast? = some c) := by
      rw [hs.concat_iff]
      exact and_congr_right fun _ => forall_congr' fun hc => by rw [hseen c hc]
    rw [firstFault_cons_eq_none_iff, ← and_assoc, ← hstep, hsplit]
    by_cases hnext : IsPattern (s ++ [c])
    · have hseen' : ∀ d, Text.isLower d = true →
          (d ∈ (if Text.isLower c then c :: seen else seen) ↔ d ∈ s ++ [c]) := by
        intro d hd
        cases hc : Text.isLower c with
        | true => simp [hseen d hd, or_comm]
        | false =>
          have hne : d ≠ c := fun h => by simp [h, hc] at hd
          simp [hseen d hd, hne]
      have hrest := ih hnext hseen'
      rw [List.getLast?_concat] at hrest
      exact (and_iff_right hnext).trans hrest
    · exact iff_of_false (fun h => hnext h.1) fun h => hnext h.of_append

theorem firstFault_nil_eq_none_iff (n : Text) : firstFault [] none n = none ↔ IsPattern n :=
  firstFault_eq_none_iff_isPattern isPattern_nil fun _ _ => Iff.rfl

@[simp] theorem strip_strip (p : Text) : strip (strip p) = strip p := by simp [strip]

theorem normalize_eq_ok_iff {p n : Text} :
    normalize p = .ok n ↔ n = strip p ∧ n ≠ [] ∧ IsPattern n := by
  rw [normalize, ← firstFault_nil_eq_none_iff n]
  constructor
  · intro h
    split at h
    · cases h
    · split at h
      · cases h
      · obtain rfl := Except.ok.inj h
        exact ⟨rfl, ‹_›, ‹_›⟩
  · intro ⟨hn, hne, hfault⟩
    subst hn
    rw [if_neg hne, hfault]

theorem normalize_eq_error {p : Text} {e : EncodingError} (h : normalize p = .error e) :
    ∃ fault, e = .format fault p := by
  simp only [normalize] at h
  split at h
  · exact ⟨_, (Except.error.inj h).symm⟩
  · split at h
    · exact ⟨_, (Except.error.inj h).symm⟩
    · cases h

theorem IsPattern.isNormal {n : Text} (h : IsPattern n) : IsNormal n where
  isPatternChar := h.isPatternChar
  not_mem before c d after hn hc hd hmem := by
    obtain ⟨k, hk⟩ := List.mem_iff_getElem?.1 hmem
    have hplace : ∀ m, n[before.length + m]? = (c :: d :: after)[m]? := by
      intro m
      rw [hn, List.getElem?_append_right (Nat.le_add_right _ _), Nat.add_sub_cancel_left]
    have hsecond := h.contiguous c hc (before.length + 0) (before.length + 1)
      (before.length + (k + 2)) (by omega) (by omega) (hplace 0) ((hplace (k + 2)).trans hk)
    exact hd (Option.some.inj ((hplace 1).symm.trans hsecond))

theorem isNormal_of_normalize {p n : Text} (h : normalize p = .ok n) : IsNormal n :=
  (normalize_eq_ok_iff.1 h).2.2.isNormal

/-- A text has a normal form exactly if, without its separators, it is not empty and a pattern of
digits and contiguous letters. The normal form is that text and its own normal form; any other
text is a fault of the text. -/
theorem normalize_isPattern (p : Text) :
    (normalize p = .ok (strip p) ↔ strip p ≠ [] ∧ IsPattern (strip p)) ∧
    (¬(strip p ≠ [] ∧ IsPattern (strip p)) → ∃ fault, normalize p = .error (.format fault p)) ∧
    ∀ n, normalize p = .ok n → n = strip p ∧ normalize n = .ok n := by
  refine ⟨normalize_eq_ok_iff.trans (and_iff_right rfl), fun h => ?_, fun n h => ?_⟩
  · cases hp : normalize p with
    | error e =>
      obtain ⟨fault, rfl⟩ := normalize_eq_error hp
      exact ⟨fault, rfl⟩
    | ok n =>
      obtain ⟨rfl, hn⟩ := normalize_eq_ok_iff.1 hp
      exact absurd hn h
  · obtain ⟨rfl, hn⟩ := normalize_eq_ok_iff.1 h
    exact ⟨rfl, normalize_eq_ok_iff.2 ⟨(strip_strip p).symm, hn⟩⟩

end X86Encoding.Pattern
