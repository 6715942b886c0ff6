import X86Encoding.Text.Numeral

set_option autoImplicit false

namespace X86Encoding.Text

def IsWord (t : Text) : Prop := t ≠ [] ∧ ∀ c ∈ t, isSpace c = false

instance (t : Text) : Decidable (IsWord t) :=
  decidable_of_iff (t ≠ [] ∧ t.all (fun c => !isSpace c) = true) (by simp [IsWord])

theorem words_append_cons (s t : Text) {c : Char} (h : isSpace c = true) :
    words (s ++ c :: t) = words s ++ words t := by
  rw [words, List.splitOnP_append_cons _ _ h, List.filter_append, words, words]

theorem IsWord.words {t : Text} (h : IsWord t) : words t = [t] := by
  rw [Text.words, List.splitOnP_eq_singleton h.2]
  simp [h.1]

theorem words_joinWith {parts : List Text} (h : ∀ w ∈ parts, IsWord w) :
    words (joinWith [' '] parts) = parts := by
  unfold joinWith
  induction parts with
  | nil => rfl
  | cons w ws ih =>
    have hw := (h w List.mem_cons_self).words
    cases ws with
    | nil => rw [List.intercalate_singleton, hw]
    | cons v vs =>
      have ih := ih fun u hu => h u (List.mem_cons_of_mem _ hu)
      rw [List.intercalate_cons_cons, List.append_assoc, List.singleton_append,
        words_append_cons _ _ rfl, hw, ih, List.singleton_append]

theorem mem_joinWith {separator : Text} {parts : List Text} {c : Char}
    (h : c ∈ joinWith separator parts) : (∃ part ∈ parts, c ∈ part) ∨ c ∈ separator := by
  unfold joinWith at h
  induction parts with
  | nil => cases h
  | cons w ws ih =>
    cases ws with
    | nil => exact .inl ⟨w, List.mem_cons_self, by simpa using h⟩
    | cons v vs =>
      rw [List.intercalate_cons_cons, List.mem_append, List.mem_append] at h
      rcases h with (h | h) | h
      · exact .inl ⟨w, List.mem_cons_self, h⟩
      · exact .inr h
      · exact (ih h).imp_left fun ⟨part, hp, hc⟩ => ⟨part, List.mem_cons_of_mem _ hp, hc⟩

theorem IsWord.append {s t : Text} (hs : IsWord s) (ht : IsWord t) : IsWord (s ++ t) :=
  ⟨by simp [hs.1], fun c hc => (List.mem_append.1 hc).elim (hs.2 c) (ht.2 c)⟩

def IsBlank (t : Text) : Prop := ∀ c ∈ t, isSpace c = true

instance (t : Text) : Decidable (IsBlank t) :=
  decidable_of_iff (t.all isSpace = true) (by simp [IsBlank])

theorem words_cons_space {c : Char} (h : isSpace c = true) (t : Text) :
    words (c :: t) = words t :=
  words_append_cons [] t h

theorem words_blank_append {w : Text} (hw : IsBlank w) (t : Text) : words (w ++ t) = words t := by
  induction w with
  | nil => rfl
  | cons c w ih =>
    rw [List.cons_append, words_cons_space (hw c List.mem_cons_self)]
    exact ih fun d hd => hw d (List.mem_cons_of_mem _ hd)

theorem words_between (s t : Text) {w : Text} (hw : IsBlank w) (hne : w ≠ []) :
    words (s ++ w ++ t) = words s ++ words t := by
  obtain ⟨c, w, rfl⟩ := List.exists_cons_of_ne_nil hne
  rw [List.append_assoc, List.cons_append, words_append_cons _ _ (hw c List.mem_cons_self),
    words_blank_append fun d hd => hw d (List.mem_cons_of_mem _ hd)]

theorem words_append_blank (s : Text) {w : Text} (hw : IsBlank w) : words (s ++ w) = words s := by
  by_cases hne : w = []
  · rw [hne, List.append_nil]
  · have hwords := words_between s [] hw hne
    rwa [List.append_nil, show words [] = [] from rfl, List.append_nil] at hwords

theorem words_ne_nil {t : Text} (h : ∃ c ∈ t, isSpace c = false) : words t ≠ [] := by
  induction t with
  | nil => simp at h
  | cons d t ih =>
    cases hd : isSpace d with
    | true =>
      rw [words_cons_space hd]
      exact ih (by simpa [hd] using h)
    | false =>
      -- the first piece begins with this character
      obtain ⟨piece, pieces, hsplit⟩ := List.exists_cons_of_ne_nil (List.splitOnP_ne_nil isSpace t)
      rw [words, List.splitOnP_cons_eq_if_modifyHead, hd, hsplit]
      simp

@[simp] theorem digitValue?_digitChar {n : Nat} (h : n < 16) :
    digitValue? (Nat.digitChar n) = some n := by
  have hall : ∀ m < 16, digitValue? (Nat.digitChar m) = some m := by decide
  exact hall n h

@[simp] theorem toLower_digitChar {n : Nat} (h : n < 16) :
    (Nat.digitChar n).toLower = Nat.digitChar n := by
  have hall : ∀ m < 16, (Nat.digitChar m).toLower = Nat.digitChar m := by decide
  exact hall n h

@[simp] theorem isSpace_digitChar {n : Nat} (h : n < 16) : isSpace (Nat.digitChar n) = false := by
  have hall : ∀ m < 16, isSpace (Nat.digitChar m) = false := by decide
  exact hall n h

@[simp] theorem toNat_div_lt (b : UInt8) : b.toNat / 16 < 16 := by
  have := b.toNat_lt
  omega

@[simp] theorem lower_hexByte (b : UInt8) : lower (hexByte b) = hexByte b := by
  simp [hexByte, Nat.mod_lt]

theorem isWord_hexByte (b : UInt8) : IsWord (hexByte b) := by
  refine ⟨by simp [hexByte], ?_⟩
  simp only [hexByte, List.mem_cons, List.not_mem_nil, or_false]
  rintro c (rfl | rfl)
  · exact isSpace_digitChar (toNat_div_lt b)
  · exact isSpace_digitChar (Nat.mod_lt _ (by decide))

end X86Encoding.Text
