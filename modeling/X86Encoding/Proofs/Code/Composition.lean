import X86Encoding.Proofs.Code.Sequence
import X86Encoding.Proofs.Vex.Fields

/-!
Code strings word by word. What a word is read as depends neither on its letter case nor on the
words around it, save that only one may be the descriptor of a vector prefix. So code strings are
put together by putting their texts side by side, and how the words are divided does not matter.
-/

set_option autoImplicit false

namespace X86Encoding

@[simp] theorem Text.digitValue?_toLower (c : Char) : digitValue? c.toLower = digitValue? c :=
  toLower_cases (motive := fun c d => digitValue? d = digitValue? c) (fun _ _ => rfl) (by decide) c

namespace Token

@[simp] theorem ofKeyword?_lower (w : Text) : ofKeyword? (Text.lower w) = ofKeyword? w := by
  simp [ofKeyword?]

@[simp] theorem ofByteText?_lower (w : Text) : ofByteText? (Text.lower w) = ofByteText? w := by
  match w with
  | [] | [_] => rfl
  | h :: l :: rest =>
    simp [ofByteText?]

@[simp] theorem ofDigitText?_lower (w : Text) : ofDigitText? (Text.lower w) = ofDigitText? w := by
  match w with
  | [] => rfl
  | [_] => simp [ofDigitText?]
  | _ :: _ :: _ :: _ => simp [ofDigitText?]
  | [c, d] =>
    by_cases hc : c = '/'
    · subst hc
      refine Text.toLower_cases
        (motive := fun d d' => ofDigitText? ['/', d'] = ofDigitText? ['/', d]) ?_ ?_ d
      · intro _ _
        rfl
      · decide
    · have hc' : c.toLower ≠ '/' := by
        rw [← beq_eq_false_iff_ne, Text.toLower_beq (by decide)]
        exact beq_eq_false_iff_ne.2 hc
      simp [ofDigitText?, hc, hc']

@[simp] theorem ofWord?_lower (w : Text) : ofWord? (Text.lower w) = ofWord? w := by
  simp [ofWord?]

end Token

namespace Code

@[simp] theorem isVexWord_lower (w : Text) : isVexWord (Text.lower w) = isVexWord w := by
  simp [isVexWord]

/-- Two code strings side by side are a third one. It has room for one descriptor. -/
def Joins (a b c : Code) : Prop :=
  (a.vex = none ∨ b.vex = none) ∧ c = ⟨a.tokens ++ b.tokens, a.vex.or b.vex⟩

@[simp] theorem nil_joins_iff {b c : Code} : Joins ⟨[], none⟩ b c ↔ c = b := by
  simp [Joins]

@[simp] theorem joins_nil_iff {a c : Code} : Joins a ⟨[], none⟩ c ↔ c = a := by
  simp [Joins]

theorem joins_assoc {a b c d : Code} :
    (∃ m, Joins a b m ∧ Joins m c d) ↔ ∃ m, Joins b c m ∧ Joins a m d := by
  have hroom : (a.vex = none ∨ b.vex = none) ∧ (a.vex.or b.vex = none ∨ c.vex = none) ↔
      (b.vex = none ∨ c.vex = none) ∧ (a.vex = none ∨ b.vex.or c.vex = none) := by
    rw [Option.or_eq_none_iff, Option.or_eq_none_iff]
    tauto
  simp only [Joins, and_assoc, exists_and_left, exists_eq_left, List.append_assoc,
    Option.or_assoc]
  rw [← and_assoc, hroom, and_assoc]

/-- What one word is read as: a token, or the place of a vector prefix with its descriptor. -/
def ReadsWord (w : Text) (c : Code) : Prop :=
  match Token.ofWord? w with
  | some token => c = ⟨[token], none⟩
  | none => isVexWord w = true ∧ ∃ v, VexDescriptor.ofText w = .ok v ∧ c = ⟨[.vex], some v⟩

@[simp] theorem readsWord_lower (w : Text) (c : Code) :
    ReadsWord (Text.lower w) c ↔ ReadsWord w c := by
  simp [ReadsWord]

theorem ReadsWord.tokens_ne_nil {w : Text} {c : Code} (h : ReadsWord w c) : c.tokens ≠ [] := by
  unfold ReadsWord at h
  split at h
  · rw [h]
    exact List.cons_ne_nil _ _
  · obtain ⟨-, v, -, rfl⟩ := h
    exact List.cons_ne_nil _ _

/-- One step of the reader: it goes on behind what the word is read as, if there is room. -/
theorem readWords_cons_eq_ok_iff {t w : Text} {code c : Code} {ws : List Text} :
    readWords t code (w :: ws) = .ok c ↔
      ∃ i, ReadsWord w i ∧ ∃ m, Joins code i m ∧ readWords t m ws = .ok c := by
  rw [readWords]
  unfold ReadsWord
  cases Token.ofWord? w with
  | some token => simp [Joins]
  | none =>
    cases isVexWord w with
    | false => simp
    | true =>
      obtain ⟨tokens, vex⟩ := code
      cases vex with
      | some v => simp [Joins]
      | none => cases VexDescriptor.ofText w <;> simp [Joins]

def Reads : List Text → Code → Prop
  | [], c => c = ⟨[], none⟩
  | w :: ws, c => ∃ i b, ReadsWord w i ∧ Reads ws b ∧ Joins i b c

theorem tokens_eq_nil_iff {ws : List Text} {c : Code} (h : Reads ws c) :
    c.tokens = [] ↔ ws = [] := by
  cases ws with
  | nil =>
    rw [Reads] at h
    simp [h]
  | cons w ws =>
    obtain ⟨i, b, hi, -, -, rfl⟩ := h
    simp [hi.tokens_ne_nil]

theorem readWords_eq_ok_iff {t : Text} {code c : Code} {ws : List Text} :
    readWords t code ws = .ok c ↔ ∃ b, Reads ws b ∧ Joins code b c := by
  induction ws generalizing code with
  | nil => simp [readWords, Reads, eq_comm]
  | cons w ws ih =>
    rw [readWords_cons_eq_ok_iff]
    constructor
    · intro h
      obtain ⟨i, hi, m, hm, hread⟩ := h
      obtain ⟨b, hb, hjoins⟩ := ih.1 hread
      obtain ⟨n, hn, hn'⟩ := joins_assoc.1 ⟨m, hm, hjoins⟩
      exact ⟨n, ⟨i, b, hi, hb, hn⟩, hn'⟩
    · intro h
      obtain ⟨n, ⟨i, b, hi, hb, hn⟩, hn'⟩ := h
      obtain ⟨m, hm, hjoins⟩ := joins_assoc.2 ⟨n, hn, hn'⟩
      exact ⟨i, hi, m, hm, ih.2 ⟨b, hb, hjoins⟩⟩

theorem ofText_eq_ok_iff {t : Text} {c : Code} :
    ofText t = .ok c ↔ Text.words t ≠ [] ∧ Reads (Text.words t) c := by
  have hmade : ofText t = .ok c ↔
      readWords t ⟨[], none⟩ (Text.words t) = .ok c ∧ c.tokens ≠ [] := by
    rw [ofText]
    cases readWords t ⟨[], none⟩ (Text.words t) with
    | error e => simp
    | ok code =>
      by_cases hnil : code.tokens = []
      · simp only [hnil, if_true, reduceCtorEq, Except.ok.injEq, false_iff]
        intro h
        exact h.2 (h.1 ▸ hnil)
      · simp only [hnil, if_false, Except.ok.injEq]
        exact ⟨fun hcode => ⟨hcode, hcode ▸ hnil⟩, And.left⟩
  simp only [hmade, readWords_eq_ok_iff, nil_joins_iff, exists_eq_right']
  constructor
  · intro h
    obtain ⟨hread, hne⟩ := h
    exact ⟨fun hwords => hne ((tokens_eq_nil_iff hread).2 hwords), hread⟩
  · intro h
    obtain ⟨hwords, hread⟩ := h
    exact ⟨hread, fun hne => hwords ((tokens_eq_nil_iff hread).1 hne)⟩

theorem reads_append {us ws : List Text} {c : Code} :
    Reads (us ++ ws) c ↔ ∃ a b, Reads us a ∧ Reads ws b ∧ Joins a b c := by
  induction us generalizing c with
  | nil => simp [Reads]
  | cons u us ih =>
    constructor
    · intro ⟨i, m, hi, hm, hjoins⟩
      obtain ⟨a, b, ha, hb, hab⟩ := ih.1 hm
      obtain ⟨n, hn, hn'⟩ := joins_assoc.2 ⟨m, hab, hjoins⟩
      exact ⟨n, b, ⟨i, a, hi, ha, hn⟩, hb, hn'⟩
    · intro ⟨n, b, ⟨i, a, hi, ha, hn⟩, hb, hn'⟩
      obtain ⟨m, hab, hjoins⟩ := joins_assoc.1 ⟨n, hn, hn'⟩
      exact ⟨i, m, hi, ih.2 ⟨a, b, ha, hb, hab⟩, hjoins⟩

theorem ofText_append_iff {s t : Text} (hs : ∃ c ∈ s, Text.isSpace c = false)
    (ht : ∃ c ∈ t, Text.isSpace c = false) {c : Code} :
    ofText (s ++ ' ' :: t) = .ok c ↔
      ∃ a b, ofText s = .ok a ∧ ofText t = .ok b ∧ Joins a b c := by
  have hwords : Text.words (s ++ ' ' :: t) = Text.words s ++ Text.words t :=
    Text.words_append_cons s t rfl
  simp only [ofText_eq_ok_iff, hwords, reads_append, ne_eq, List.append_eq_nil_iff,
    Text.words_ne_nil hs, Text.words_ne_nil ht, and_false, not_false_eq_true, true_and]

inductive Restyling : Text → Text → Prop where
  /-- Other letter case. -/
  | letters {t t' : Text} (h : Text.lower t = Text.lower t') : Restyling t t'
  /-- Other white space where there is some. -/
  | between (s t : Text) {w w' : Text} (hw : Text.IsBlank w) (hne : w ≠ [])
      (hw' : Text.IsBlank w') (hne' : w' ≠ []) : Restyling (s ++ w ++ t) (s ++ w' ++ t)
  /-- White space at the ends. -/
  | ends (t : Text) {w w' : Text} (hw : Text.IsBlank w) (hw' : Text.IsBlank w') :
      Restyling t (w ++ t ++ w')

theorem words_of_restyling {t t' : Text} (h : Restyling t t') :
    (Text.words t).map Text.lower = (Text.words t').map Text.lower := by
  cases h with
  | letters h => rw [← Text.words_lower, h, Text.words_lower]
  | between s t hw hne hw' hne' =>
    rw [Text.words_between s t hw hne, Text.words_between s t hw' hne']
  | ends t hw hw' => rw [Text.words_append_blank _ hw', Text.words_blank_append hw]

theorem reads_map_lower {ws : List Text} {c : Code} :
    Reads (ws.map Text.lower) c ↔ Reads ws c := by
  induction ws generalizing c with
  | nil => rfl
  | cons w ws ih => simp [Reads, ih]

theorem ofText_of_restyling {t t' : Text} (h : Restyling t t') (c : Code) :
    ofText t = .ok c ↔ ofText t' = .ok c := by
  have hwords := words_of_restyling h
  have hnil : Text.words t = [] ↔ Text.words t' = [] := by
    rw [← List.map_eq_nil_iff (f := Text.lower), hwords, List.map_eq_nil_iff]
  rw [ofText_eq_ok_iff, ofText_eq_ok_iff, ne_eq, hnil, ← reads_map_lower, hwords, reads_map_lower]

/-- Code strings are read piece by piece: with a blank between two texts that are not blank, what
is read is what the two are read as, side by side, if both are read and there is one descriptor at
most. What is read does not depend on letter case, nor on how much white space there is, of which
kind, and whether there is some at the ends. -/
theorem ofText_compose :
    (∀ s t, (∃ c ∈ s, Text.isSpace c = false) → (∃ c ∈ t, Text.isSpace c = false) →
      ∀ c, ofText (s ++ ' ' :: t) = .ok c ↔
        ∃ a b, ofText s = .ok a ∧ ofText t = .ok b ∧ Joins a b c) ∧
    ∀ s t, Relation.EqvGen Restyling s t → ∀ c, ofText s = .ok c ↔ ofText t = .ok c := by
  constructor
  · intro s t hs ht c
    exact ofText_append_iff hs ht
  · intro s t h c
    exact Text.iff_of_eqvGen (p := fun t => ofText t = .ok c)
      (fun _ _ hone => ofText_of_restyling hone c) h

theorem ofText_compose_vector :
    (∃ c, ofText "VEX.0F.W0 58 /r".toList = .ok c ∧ c.tokens = [.vex, .byte 0x58, .modRM] ∧
      ofText "\tvex.0f.w0 58   /R".toList = .ok c) ∧
    ∀ c, ofText "VEX.0F.W0 VEX.0F.W0".toList ≠ .ok c := by
  obtain ⟨a, ha, htokens, hvex⟩ : ∃ a, ofText "VEX.0F.W0".toList = .ok a ∧ a.tokens = [.vex] ∧
      a.vex ≠ none := ⟨_, rfl, rfl, nofun⟩
  have hb : ofText "58 /r".toList = .ok ⟨[.byte 0x58, .modRM], none⟩ := rfl
  have hvector : ∃ c ∈ "VEX.0F.W0".toList, Text.isSpace c = false := ⟨'V', by simp, rfl⟩
  have hmain : ∃ c ∈ "58 /r".toList, Text.isSpace c = false := ⟨'5', by simp, rfl⟩
  have hjoined := (ofText_compose.1 _ _ hvector hmain _).2 ⟨a, _, ha, hb, .inr rfl, rfl⟩
  have hletters : Restyling "VEX.0F.W0 58 /r".toList "vex.0f.w0 58 /R".toList :=
    .letters (by decide)
  have hbetween : Restyling "vex.0f.w0 58 /R".toList "vex.0f.w0 58   /R".toList :=
    .between "vex.0f.w0 58".toList "/R".toList (show Text.IsBlank [' '] by decide) (by decide)
      (show Text.IsBlank [' ', ' ', ' '] by decide) (by decide)
  have hends : Restyling "vex.0f.w0 58   /R".toList "\tvex.0f.w0 58   /R".toList :=
    .ends _ (show Text.IsBlank ['\t'] by decide) (show Text.IsBlank [] by decide)
  have hsame := Relation.EqvGen.trans _ _ _ (.rel _ _ hletters)
    (.trans _ _ _ (.rel _ _ hbetween) (.rel _ _ hends))
  refine ⟨⟨_, hjoined, by rw [htokens]; rfl, (ofText_compose.2 _ _ hsame _).1 hjoined⟩, ?_⟩
  intro c hc
  obtain ⟨a', b', ha', hb', hone, -⟩ := (ofText_compose.1 _ _ hvector hvector c).1 hc
  obtain rfl := Except.ok.inj (ha.symm.trans ha')
  obtain rfl := Except.ok.inj (ha.symm.trans hb')
  exact hone.elim hvex hvex

end Code
end X86Encoding
