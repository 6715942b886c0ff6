import Mathlib.Data.List.Basic
import X86Encoding.Proofs.Row.Columns
import X86Encoding.Row.Basic

/-!
What a row says of its operands. The types stand in one column and the letters that place them in
another; both are followed one by one, so each operand has its own type, letter and separator. With
the layout of columns this says what a line is read as, whatever the white space in it.
-/

set_option autoImplicit false

namespace X86Encoding

/-- A text as pieces without dividing characters, and the dividing characters between them. -/
inductive Text.Divided (p : Char → Bool) : Text → List Text → Text → Prop where
  | last {t : Text} (ht : ∀ c ∈ t, p c = false) : Divided p t [t] []
  | cons {t rest separators : Text} {s : Char} {pieces : List Text} (ht : ∀ c ∈ t, p c = false)
      (hs : p s = true) (h : Divided p rest pieces separators) :
      Divided p (t ++ s :: rest) (t :: pieces) (s :: separators)

namespace Text

variable {p : Char → Bool}

theorem Divided.cons_char {c : Char} (hc : p c = false) {t piece separators : Text}
    {pieces : List Text} (h : Divided p t (piece :: pieces) separators) :
    Divided p (c :: t) ((c :: piece) :: pieces) separators := by
  cases h with
  | last ht => exact .last (by simpa [hc] using ht)
  | cons ht hs h => exact .cons (t := c :: piece) (by simpa [hc] using ht) hs h

theorem divided_splitOnP (t : Text) : Divided p t (t.splitOnP p) (t.filter p) := by
  induction t with
  | nil => exact .last nofun
  | cons c t ih =>
    rw [List.splitOnP_cons_eq_if_modifyHead]
    cases hc : p c with
    | true =>
      rw [List.filter_cons_of_pos hc]
      exact .cons (t := []) nofun hc ih
    | false =>
      obtain ⟨piece, pieces, hsplit⟩ := List.exists_cons_of_ne_nil (List.splitOnP_ne_nil p t)
      rw [hsplit] at ih ⊢
      rw [List.filter_cons_of_neg (by simp [hc])]
      exact ih.cons_char hc

end Text

namespace OperandField

/-- The letter of a field, or the one for an operand that is not encoded. -/
def letterOf (field : Option OperandField) : Char := field.elim '-' letter

theorem letterOf_of_ofLetter {c : Char} {field : Option OperandField}
    (h : ofLetter c = .ok field) : letterOf field = c := by
  unfold ofLetter at h
  split at h
  · rename_i hc
    obtain rfl := Except.ok.inj h
    exact hc.symm
  · split at h
    · rename_i f hf
      obtain rfl := Except.ok.inj h
      have hletter := List.find?_some hf
      exact beq_iff_eq.1 hletter
    · cases h

end OperandField

namespace Operand

theorem fields_of_ofText {t : Text} {field : Option OperandField} {colon : Bool} {o : Operand}
    (h : ofText t field colon = .ok o) : o.field = field ∧ o.colon = colon := by
  unfold ofText at h
  dsimp only at h
  split at h
  · cases h
  · split at h
    · cases h
    · obtain rfl := Except.ok.inj h
      exact ⟨rfl, rfl⟩

structure ReadsAs (types : List Text) (letters separators : Text) (operands : List Operand) :
    Prop where
  letters : operands.map (fun o => OperandField.letterOf o.field) = letters
  types : ∀ (i : Nat) (o : Operand), operands[i]? = some o →
    ∃ t, types[i]? = some t ∧ ofText t o.field o.colon = .ok o
  colons : ∀ (i : Nat) (o : Operand), operands[i]? = some o →
    (o.colon = true ↔ separators[i]? = some ':')

theorem readAll_cons_eq_ok {t : Text} {c : Char} {rest : List (Text × Char)} {separators : Text}
    {operands : List Operand} (h : readAll ((t, c) :: rest) separators = .ok operands) :
    ∃ o os, operands = o :: os ∧ OperandField.letterOf o.field = c ∧
      ofText t o.field o.colon = .ok o ∧ (o.colon = true ↔ separators.head? = some ':') ∧
      readAll rest separators.tail = .ok os := by
  rw [readAll] at h
  cases hfield : OperandField.ofLetter c with
  | error e => simp [hfield] at h
  | ok field =>
    cases ho : ofText t field (separators.head? == some ':') with
    | error e => simp [hfield, ho] at h
    | ok o =>
      cases hos : readAll rest separators.tail with
      | error e => simp [hfield, ho, hos] at h
      | ok os =>
        simp only [hfield, ho, hos, Except.ok.injEq] at h
        obtain ⟨rfl, hcolon⟩ := fields_of_ofText ho
        refine ⟨o, os, h.symm, OperandField.letterOf_of_ofLetter hfield, ?_, ?_, rfl⟩
        · rw [hcolon, ho]
        · rw [hcolon, beq_iff_eq]

theorem readsAs_of_readAll {types : List Text} {letters separators : Text}
    {operands : List Operand} (hlength : types.length = letters.length)
    (h : readAll (types.zip letters) separators = .ok operands) :
    ReadsAs types letters separators operands := by
  induction types generalizing letters separators operands with
  | nil =>
    obtain rfl := List.length_eq_zero_iff.1 hlength.symm
    obtain rfl := Except.ok.inj h
    exact ⟨rfl, nofun, nofun⟩
  | cons t types ih =>
    obtain ⟨c, letters, rfl⟩ := List.exists_cons_of_length_eq_add_one hlength.symm
    obtain ⟨o, os, rfl, hletter, ho, hcolon, hos⟩ := readAll_cons_eq_ok h
    obtain ⟨hletters, htypes, hcolons⟩ := ih (Nat.succ.inj hlength) hos
    refine ⟨by rw [List.map_cons, hletter, hletters], fun i o' hi => ?_, fun i o' hi => ?_⟩
    · cases i with
      | zero =>
        obtain rfl := Option.some.inj hi
        exact ⟨t, rfl, ho⟩
      | succ i => exact htypes i o' hi
    · cases i with
      | zero =>
        obtain rfl := Option.some.inj hi
        rw [hcolon, List.head?_eq_getElem?]
      | succ i =>
        rw [hcolons i o' hi, List.getElem?_tail]

/-- What a column of operands is read as, by the letters of the code column. The letters `r+mi` go
with two types; the first one gives both a register and what may stand in its place. -/
def ReadsColumn (column letters : Text) (operands : List Operand) : Prop :=
  ∃ types separators, Text.Divided isSeparator column types separators ∧
    if letters = sharedFields then
      ∃ register immediate, types = [register, immediate] ∧
        ReadsAs [register, asRM register, immediate] "rmi".toList (',' :: separators) operands
    else ReadsAs types letters separators operands

theorem readsColumn_of_readColumn {column letters : Text} {operands : List Operand}
    (h : readColumn column letters = .ok operands) (hne : operands ≠ []) :
    letters ≠ [] ∧ ReadsColumn column letters operands := by
  unfold readColumn at h
  dsimp only at h
  split at h
  · exact absurd (Except.ok.inj h).symm hne
  · rename_i hsome
    refine ⟨fun hnil => hsome (by simp [hnil]), _, _, Text.divided_splitOnP column, ?_⟩
    split at h
    · rename_i hshared
      rw [if_pos hshared]
      split at h
      · rename_i register immediate htypes
        exact ⟨register, immediate, htypes, readsAs_of_readAll rfl h⟩
      · cases h
    · rename_i hshared
      rw [if_neg hshared]
      split at h
      · rename_i hlength
        exact readsAs_of_readAll hlength h
      · cases h

end Operand

namespace Columns

def HasLetters (column letters : Text) : Prop :=
  ':' ∉ letters ∧ ∃ rest, column = '[' :: letters ++ ':' :: rest

theorem eq_of_inner? {column inner : Text} (h : CodeColumn.inner? column = some inner) :
    column = '[' :: (inner ++ [']']) := by
  unfold CodeColumn.inner? at h
  split at h
  · rw [List.isSuffixOf?_eq_some_iff_append_eq.1 h]
  · cases h

theorem exists_parts_of_ofParts? {texts : List Text} {parts : CodeColumn}
    (h : CodeColumn.ofParts? texts = some parts) (hne : parts.letters ≠ []) :
    ∃ t ts, texts = parts.letters :: t :: ts := by
  unfold CodeColumn.ofParts? at h
  split at h
  · split at h <;> cases h
    exact absurd rfl hne
  · split at h <;> cases h
    exact ⟨_, _, rfl⟩
  · split at h <;> cases h
    exact ⟨_, _, rfl⟩
  · cases h

theorem hasLetters_of_ofText {column : Text} {parts : CodeColumn}
    (h : CodeColumn.ofText column = .ok parts) (hne : parts.letters ≠ []) :
    HasLetters column parts.letters := by
  unfold CodeColumn.ofText at h
  split at h
  · rename_i hparts
    obtain rfl := Except.ok.inj h
    obtain ⟨inner, hinner, hparts⟩ := Option.bind_eq_some_iff.1 hparts
    obtain ⟨t, ts, hsplit⟩ := exists_parts_of_ofParts? hparts hne
    have hdivided := Text.divided_splitOnP (p := (· == ':')) inner
    rw [← List.splitOn_eq_splitOnP, hsplit] at hdivided
    generalize inner.filter (· == ':') = separators at hdivided
    cases hdivided with
    | @cons _ rest _ s _ hletters hs _ =>
      obtain rfl := beq_iff_eq.1 hs
      refine ⟨fun hmem => by simpa using hletters _ hmem, rest ++ [']'], ?_⟩
      rw [eq_of_inner? hinner]
      simp
  · cases h

end Columns

namespace Row

open Columns (IsPlain IsBracketed Spacing Laid)

theorem ofLine_of_laid {line mnemonic operands code flags : Text}
    (h : Laid line [mnemonic, operands, code, flags]) :
    ofLine line = ofColumns mnemonic operands code flags := by
  rw [ofLine, Columns.split_eq_ok_iff.2 h]

theorem ofLine_of_not_laid {line : Text}
    (h : ∀ columns, Laid line columns → columns.length ≠ 4) :
    ∃ fault, ofLine line = .error (.format fault line) := by
  unfold ofLine
  cases hsplit : Columns.split line with
  | error e => exact ⟨_, congrArg Except.error (Columns.eq_of_splitFrom_eq_error hsplit)⟩
  | ok columns =>
    have hcolumns := h columns (Columns.split_eq_ok_iff.1 hsplit)
    split
    · rename_i heq
      cases heq
    · rename_i heq
      obtain rfl := Except.ok.inj heq
      exact absurd rfl hcolumns
    · exact ⟨_, rfl⟩

theorem letters_of_readCode {column letters : Text} {code : Option Code}
    {tuple : Option TupleType} (h : readCode column = .ok (letters, code, tuple))
    (hne : letters ≠ []) : Columns.HasLetters column letters := by
  unfold readCode at h
  split at h
  · cases h
    exact absurd rfl hne
  · split at h
    · cases h
    · rename_i parts hparts
      split at h
      · cases h
      · split at h
        · cases h
        · cases h
          exact Columns.hasLetters_of_ofText hparts hne

theorem readsColumn_of_ofColumns {mnemonic operands code flags : Text} {r : Row}
    (h : ofColumns mnemonic operands code flags = .ok r) (hne : r.operands ≠ []) :
    ∃ letters, Columns.HasLetters code letters ∧
      Operand.ReadsColumn operands letters r.operands := by
  unfold ofColumns at h
  split at h
  · split at h
    · cases h
    · rename_i letters _ _ hcode
      split at h
      · cases h
      · rename_i os hoperands
        obtain rfl := Except.ok.inj h
        obtain ⟨hletters, hreads⟩ := Operand.readsColumn_of_readColumn hoperands hne
        exact ⟨letters, letters_of_readCode hcode hletters, hreads⟩
  · cases h

/-- A row is its four columns. However much white space there is around them, the same columns are
found and the same row is read, if any is; a line that is not laid out in four columns is refused
for its format. The operands of a row, if there are any, stand for the letters of the code column
one by one, and a colon is noted where one stands behind the type. -/
theorem ofLine_columns :
    (∀ mnemonic operands code flags : Text, IsPlain mnemonic → IsPlain operands → IsPlain flags →
      IsPlain code ∨ IsBracketed code → ∀ s : Spacing code,
        Columns.split (s.line mnemonic operands flags) = .ok [mnemonic, operands, code, flags] ∧
        ∀ s' : Spacing code,
          ofLine (s'.line mnemonic operands flags) = ofLine (s.line mnemonic operands flags)) ∧
    (∀ line, (∀ columns, Laid line columns → columns.length ≠ 4) →
      ∃ fault, ofLine line = .error (.format fault line)) ∧
    ∀ line r, ofLine line = .ok r → r.operands ≠ [] →
      ∃ mnemonic operands code flags letters, Laid line [mnemonic, operands, code, flags] ∧
        Columns.HasLetters code letters ∧ Operand.ReadsColumn operands letters r.operands := by
  refine ⟨?_, fun line h => ofLine_of_not_laid h, ?_⟩
  · intro mnemonic operands code flags hmnemonic hoperands hflags hcode s
    have hlaid := fun s : Spacing code => s.laid_line hcode hmnemonic hoperands hflags
    refine ⟨Columns.split_eq_ok_iff.2 (hlaid s), fun s' => ?_⟩
    rw [ofLine_of_laid (hlaid s'), ofLine_of_laid (hlaid s)]
  · intro line r h hne
    unfold ofLine at h
    split at h
    · cases h
    · rename_i mnemonic operands code flags hsplit
      obtain ⟨letters, hletters, hreads⟩ := readsColumn_of_ofColumns h hne
      exact ⟨mnemonic, operands, code, flags, letters, Columns.split_eq_ok_iff.1 hsplit, hletters,
        hreads⟩
    · cases h

theorem ofLine_columns_farCall :
    let line := "CALL imm:imm16 [ji: odf 9a iwd seg] 8086".toList
    ofLine "CALL\timm:imm16  [ji: odf 9a iwd seg]8086 ".toList = ofLine line ∧
    (∃ fault, ofLine "CALL imm:imm16 8086".toList =
      .error (.format fault "CALL imm:imm16 8086".toList)) ∧
    ∃ r, ofLine line = .ok r ∧
      r.operands.map (fun o => (o.field, o.colon)) =
        [(some .secondImmediate, true), (some .immediate, false)] ∧
      ∃ mnemonic operands code flags letters, Laid line [mnemonic, operands, code, flags] ∧
        Columns.HasLetters code letters ∧ Operand.ReadsColumn operands letters r.operands := by
  intro line
  let code := "[ji: odf 9a iwd seg]".toList
  have hcode : IsBracketed code := ⟨"ji: odf 9a iwd seg".toList, by decide, rfl⟩
  let uneven : Spacing code := {
    Spacing.single code with
    first := ['\t']
    second := [' ', ' ']
    third := []
    last := [' ']
    first_blank := by decide
    first_ne := by decide
    second_blank := by decide
    second_ne := by decide
    third_blank := by decide
    third_ne := .inr hcode
    last_blank := by decide }
  obtain ⟨hlayout, hrefused, hread⟩ := ofLine_columns
  refine ⟨?_, ?_, ?_⟩
  · have hsingle : (Spacing.single code).line "CALL".toList "imm:imm16".toList "8086".toList =
        line := rfl
    have huneven : uneven.line "CALL".toList "imm:imm16".toList "8086".toList =
        "CALL\timm:imm16  [ji: odf 9a iwd seg]8086 ".toList := rfl
    rw [← hsingle, ← huneven]
    exact (hlayout _ _ code _ (by decide) (by decide) (by decide) (.inr hcode) _).2 uneven
  · refine hrefused _ fun columns h => ?_
    have hthree : (Columns.split "CALL imm:imm16 8086".toList).toOption.map List.length =
        some 3 := by
      decide +kernel
    rw [Columns.split_eq_ok_iff.2 h] at hthree
    exact fun hfour => by simp [Except.toOption, hfour] at hthree
  · have hrow : (ofLine line).toOption.map (fun r => r.operands.map fun o => (o.field, o.colon)) =
        some [(some .secondImmediate, true), (some .immediate, false)] := by
      decide +kernel
    cases hr : ofLine line with
    | error e =>
      rw [hr] at hrow
      cases hrow
    | ok r =>
      rw [hr] at hrow
      have hoperands := Option.some.inj hrow
      refine ⟨r, rfl, hoperands, hread line r hr fun hnil => ?_⟩
      cases (congrArg (List.map fun o : Operand => (o.field, o.colon)) hnil).symm.trans hoperands

end Row
end X86Encoding
