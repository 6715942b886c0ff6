import X86Encoding.Proofs.Vex.Dotted

set_option autoImplicit false

namespace X86Encoding.Code

/-- What reading can give: some tokens, digits in range, and one place for a descriptor if
there is one. -/
structure IsReadable (c : Code) : Prop where
  tokens_ne_nil : c.tokens ≠ []
  digit_le : ∀ reg, .modRMReg reg ∈ c.tokens → reg ≤ 7
  count_vex : c.tokens.count .vex = if c.vex.isSome then 1 else 0

theorem word_of_ne (vex : Option VexDescriptor) {t : Token} (h : t ≠ .vex) :
    word vex t = t.spelling := by
  cases t with
  | vex => exact absurd rfl h
  | _ => rfl

theorem isWord_word {vex : Option VexDescriptor} {t : Token}
    (hdigit : ∀ reg, t = .modRMReg reg → reg ≤ 7) (hvex : t = .vex → vex.isSome) :
    Text.IsWord (word vex t) := by
  by_cases h : t = .vex
  · obtain ⟨v, hv⟩ := Option.isSome_iff_exists.1 (hvex h)
    subst h
    subst hv
    exact v.isWord_text
  · rw [word_of_ne vex h]
    exact Token.isWord_spelling ⟨h, hdigit⟩

theorem words_text {c : Code} (h : c.IsReadable) :
    Text.words c.text = c.tokens.map (word c.vex) := by
  apply Text.words_joinWith
  intro w hw
  rw [List.mem_map] at hw
  obtain ⟨t, ht, rfl⟩ := hw
  apply isWord_word
  · intro reg hreg
    exact h.digit_le reg (hreg ▸ ht)
  · intro hvex
    subst hvex
    have hcount := h.count_vex
    have hpos := List.count_pos_iff.2 ht
    split at hcount
    · assumption
    · omega

theorem readWords_spelled (t : Text) (vex : Option VexDescriptor) {ts : List Token}
    (h : ∀ token ∈ ts, token.IsSpelled) (code : Code) (rest : List Text) :
    readWords t code (ts.map (word vex) ++ rest) =
      readWords t { code with tokens := code.tokens ++ ts } rest := by
  induction ts generalizing code with
  | nil => simp
  | cons token ts ih =>
    have htoken := h token List.mem_cons_self
    have hrest := ih fun u hu => h u (List.mem_cons_of_mem _ hu)
    rw [List.map_cons, List.cons_append, readWords, word_of_ne vex htoken.1,
      Token.ofWord?_spelling htoken]
    simp only [hrest, List.append_assoc, List.singleton_append]

theorem readWords_vex (t : Text) (v : VexDescriptor) (tokens : List Token) (rest : List Text) :
    readWords t ⟨tokens, none⟩ (v.text :: rest) =
      readWords t ⟨tokens ++ [.vex], some v⟩ rest := by
  simp [readWords]

theorem readWords_text (t : Text) {c : Code} (h : c.IsReadable) :
    readWords t ⟨[], none⟩ (c.tokens.map (word c.vex)) = .ok c := by
  obtain ⟨tokens, vex⟩ := c
  have hspelled : ∀ ts : List Token, .vex ∉ ts → (∀ u ∈ ts, u ∈ tokens) →
      ∀ u ∈ ts, u.IsSpelled := by
    intro ts hvex hsub u hu
    exact ⟨fun he => hvex (he ▸ hu), fun reg hreg => h.digit_le reg (hreg ▸ hsub u hu)⟩
  have hcount := h.count_vex
  cases vex with
  | none =>
    have hnone := List.count_eq_zero.1 hcount
    have hread := readWords_spelled t none (hspelled tokens hnone fun _ => id) ⟨[], none⟩ []
    rw [List.append_nil] at hread
    rw [hread]
    rfl
  | some v =>
    -- the one place of the descriptor parts the tokens that have spellings of their own
    have hmem : Token.vex ∈ tokens := List.count_pos_iff.1 (by rw [hcount]; exact Nat.one_pos)
    obtain ⟨before, after, rfl⟩ := List.append_of_mem hmem
    simp only [List.count_append, List.count_cons_self, Option.isSome_some, if_true] at hcount
    have hbefore : Token.vex ∉ before := List.count_eq_zero.1 (by omega)
    have hafter : Token.vex ∉ after := List.count_eq_zero.1 (by omega)
    have hread := readWords_spelled t (some v) (hspelled after hafter (by simp_all))
      ⟨before ++ [.vex], some v⟩ []
    rw [List.append_nil] at hread
    rw [List.map_append, readWords_spelled t _ (hspelled before hbefore (by simp_all)),
      List.map_cons, List.nil_append]
    show readWords t ⟨before, none⟩ (v.text :: after.map (word (some v))) = _
    rw [readWords_vex, hread, List.append_assoc]
    rfl

theorem ofText_text {c : Code} (h : c.IsReadable) : ofText c.text = .ok c := by
  simp only [ofText, words_text h, readWords_text _ h, if_neg h.tokens_ne_nil]

/-- What holds after every word that is read: `IsReadable`, save that no token need be there. -/
structure IsPartial (c : Code) : Prop where
  digit_le : ∀ reg, .modRMReg reg ∈ c.tokens → reg ≤ 7
  count_vex : c.tokens.count .vex = if c.vex.isSome then 1 else 0

theorem isPartial_nil : IsPartial ⟨[], none⟩ := ⟨by simp, rfl⟩

theorem IsPartial.push {c : Code} {token : Token} (h : c.IsPartial) (htoken : token.IsSpelled) :
    IsPartial { c with tokens := c.tokens ++ [token] } := by
  constructor
  · intro reg hreg
    rcases List.mem_append.1 hreg with hreg | hreg
    · exact h.digit_le reg hreg
    · exact htoken.2 reg (List.mem_singleton.1 hreg).symm
  · have hnone : [token].count .vex = 0 := by simp [htoken.1]
    rw [List.count_append, hnone, Nat.add_zero, h.count_vex]

theorem IsPartial.pushVex {c : Code} (h : c.IsPartial) (hvex : c.vex = none) (v : VexDescriptor) :
    IsPartial ⟨c.tokens ++ [.vex], some v⟩ := by
  constructor
  · intro reg hreg
    exact h.digit_le reg (by simpa using hreg)
  · have hcount := h.count_vex
    rw [hvex] at hcount
    rw [List.count_append, hcount]
    rfl

theorem isPartial_of_readWords {t : Text} {words : List Text} {c c' : Code} (hc : c.IsPartial)
    (h : readWords t c words = .ok c') : c'.IsPartial := by
  induction words generalizing c with
  | nil =>
    cases h
    exact hc
  | cons word rest ih =>
    rw [readWords] at h
    split at h
    · next token htoken => exact ih (hc.push (Token.isSpelled_of_ofWord? htoken)) h
    · split at h
      · split at h
        · cases h
        · next hvex =>
          split at h
          · cases h
          · next v hv => exact ih (hc.pushVex (by simpa using hvex) v) h
      · cases h

theorem isReadable_of_ofText {t : Text} {c : Code} (h : ofText t = .ok c) : c.IsReadable := by
  unfold ofText at h
  split at h
  · cases h
  · next code hread =>
    split at h
    · cases h
    · next htokens =>
      cases h
      have hpartial := isPartial_of_readWords isPartial_nil hread
      exact ⟨htokens, hpartial.digit_le, hpartial.count_vex⟩

/-- The printed form is read back as the code string exactly when that is readable, and these are
all the code strings that any text is read as. -/
theorem ofText_text_iff (c : Code) :
    (ofText c.text = .ok c ↔ c.IsReadable) ∧ ((∃ t, ofText t = .ok c) ↔ c.IsReadable) := by
  refine ⟨⟨isReadable_of_ofText, ofText_text⟩, ?_, fun h => ⟨c.text, ofText_text h⟩⟩
  rintro ⟨t, h⟩
  exact isReadable_of_ofText h

end X86Encoding.Code
