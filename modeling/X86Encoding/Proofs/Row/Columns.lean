import Mathlib.Data.List.TakeWhile
import X86Encoding.Proofs.Text.Words
import X86Encoding.Row.Columns

/-!
The layout of a line in columns, said without the scanner: white space, columns that end at white
space or at their closing bracket, and nothing else. The scanner accepts a line exactly if it is
laid out like this, and then it finds the columns, of which there is one list only.
-/

set_option autoImplicit false

namespace X86Encoding.Columns

/-- A column without brackets around it. One that opened with a bracket would not end at white
space. -/
structure IsPlain (c : Text) : Prop where
  isWord : Text.IsWord c
  unopened : c.head? ≠ some '['

instance (c : Text) : Decidable (IsPlain c) :=
  decidable_of_iff (Text.IsWord c ∧ c.head? ≠ some '[')
    ⟨fun h => ⟨h.1, h.2⟩, fun h => ⟨h.isWord, h.unopened⟩⟩

def IsBracketed (c : Text) : Prop := ∃ x : Text, ']' ∉ x ∧ c = '[' :: x ++ [']']

/-- A whole column in front of the rest of a line: what has no brackets goes on to white space or
to the end. -/
def IsColumnBefore (c rest : Text) : Prop :=
  (IsPlain c ∧ ∀ d ∈ rest.head?, Text.isSpace d = true) ∨ IsBracketed c

theorem IsColumnBefore.head {c rest : Text} (h : IsColumnBefore c rest) :
    ∃ d c', c = d :: c' ∧ Text.isSpace d = false := by
  rcases h with ⟨hc, -⟩ | ⟨x, -, rfl⟩
  · obtain ⟨d, c', rfl⟩ := List.exists_cons_of_ne_nil hc.isWord.1
    exact ⟨d, c', rfl, hc.isWord.2 d List.mem_cons_self⟩
  · exact ⟨'[', _, rfl, rfl⟩

theorem idxOf?_eq_some_iff_append {t : Text} {d : Char} {i : Nat} :
    t.idxOf? d = some i ↔ ∃ x rest, t = x ++ d :: rest ∧ d ∉ x ∧ x.length = i := by
  induction t generalizing i with
  | nil => simp
  | cons c t ih =>
    rw [List.idxOf?_cons]
    by_cases hc : c = d
    · subst hc
      simp only [beq_self_eq_true, if_true, Option.some.injEq]
      constructor
      · rintro rfl
        exact ⟨[], t, rfl, List.not_mem_nil, rfl⟩
      · rintro ⟨x, rest, ht, hx, rfl⟩
        cases x with
        | nil => rfl
        | cons e x => exact absurd (List.cons.inj ht).1 fun h => hx (h ▸ List.mem_cons_self)
    · simp only [beq_eq_false_iff_ne.2 hc, Bool.false_eq_true, if_false, Option.map_eq_some_iff, ih]
      constructor
      · rintro ⟨_, ⟨x, rest, rfl, hx, rfl⟩, rfl⟩
        exact ⟨c :: x, rest, rfl, by simp [hx, Ne.symm hc], rfl⟩
      · rintro ⟨x, rest, ht, hx, rfl⟩
        cases x with
        | nil => exact absurd (List.cons.inj ht).1 hc
        | cons e x =>
          obtain ⟨rfl, rfl⟩ := List.cons.inj ht
          exact ⟨_, ⟨x, rest, rfl, fun h => hx (List.mem_cons_of_mem _ h), rfl⟩, rfl⟩

theorem columnLength?_of_head?_ne {t : Text} (h : t.head? ≠ some '[') :
    columnLength? t = some (t.takeWhile fun c => !Text.isSpace c).length := by
  unfold columnLength?
  split
  · exact absurd rfl h
  · rfl

theorem columnLength?_append {c rest : Text} (h : IsColumnBefore c rest) :
    columnLength? (c ++ rest) = some c.length := by
  rcases h with ⟨hc, hend⟩ | ⟨x, hx, rfl⟩
  · have hopen : (c ++ rest).head? ≠ some '[' := by
      obtain ⟨d, c', rfl⟩ := List.exists_cons_of_ne_nil hc.isWord.1
      exact hc.unopened
    have hstop : rest.takeWhile (fun d => !Text.isSpace d) = [] := by
      cases rest with
      | nil => rfl
      | cons d rest => simp [hend d rfl]
    rw [columnLength?_of_head?_ne hopen,
      List.takeWhile_append_of_pos (by simpa using hc.isWord.2), hstop, List.append_nil]
  · have hclosed : ('[' :: x ++ [']'] ++ rest).idxOf? ']' = some (x.length + 1) :=
      idxOf?_eq_some_iff_append.2 ⟨'[' :: x, rest, by simp, by simp [hx], rfl⟩
    exact (congrArg (Option.map (· + 1)) hclosed).trans (by simp)

theorem exists_column_of_columnLength? {d : Char} {t : Text} {n : Nat}
    (hd : Text.isSpace d = false) (h : columnLength? (d :: t) = some n) :
    ∃ c rest, d :: t = c ++ rest ∧ IsColumnBefore c rest ∧ c.length = n := by
  by_cases hopen : d = '['
  · subst hopen
    obtain ⟨m, hm, rfl⟩ := Option.map_eq_some_iff.1 h
    obtain ⟨x, rest, ht, hx, rfl⟩ := idxOf?_eq_some_iff_append.1 hm
    cases x with
    | nil => cases (List.cons.inj ht).1
    | cons e x =>
      obtain ⟨rfl, rfl⟩ := List.cons.inj ht
      refine ⟨'[' :: x ++ [']'], rest, by simp, .inr ⟨x, ?_, rfl⟩, by simp⟩
      exact fun h => hx (List.mem_cons_of_mem _ h)
  · rw [columnLength?_of_head?_ne (by simpa using hopen)] at h
    refine ⟨_, _, List.takeWhile_append_dropWhile.symm, .inl ⟨⟨⟨?_, ?_⟩, ?_⟩, ?_⟩,
      Option.some.inj h⟩
    · simp [hd]
    · intro e he
      simpa using List.mem_takeWhile_imp he
    · simpa [hd] using hopen
    · intro e he
      have hhead := List.head?_dropWhile_not (fun c => !Text.isSpace c) (d :: t)
      rw [he] at hhead
      simpa using hhead

/-- How a line is laid out, with its columns from the left. -/
inductive Laid : Text → List Text → Prop where
  /-- White space only. -/
  | blank {w : Text} (hw : Text.IsBlank w) : Laid w []
  /-- White space, a column, and what comes behind it. -/
  | column {w c rest : Text} {columns : List Text} (hw : Text.IsBlank w)
      (hc : IsColumnBefore c rest) (h : Laid rest columns) : Laid (w ++ (c ++ rest)) (c :: columns)

theorem trimStart_blank {w : Text} (hw : Text.IsBlank w) : Text.trimStart w = [] :=
  List.dropWhile_eq_nil_iff.2 hw

theorem trimStart_blank_append {w c rest : Text} (hw : Text.IsBlank w)
    (hc : IsColumnBefore c rest) : Text.trimStart (w ++ (c ++ rest)) = c ++ rest := by
  obtain ⟨d, c', rfl, hd⟩ := hc.head
  rw [Text.trimStart, List.dropWhile_append_of_pos hw]
  simp [hd]

theorem splitFrom_of_trimStart_eq_nil (line : Text) {t : Text} (h : Text.trimStart t = []) :
    splitFrom line t = .ok [] := by
  rw [splitFrom, dif_pos h]

theorem splitFrom_column (line : Text) {w c rest : Text} (hw : Text.IsBlank w)
    (hc : IsColumnBefore c rest) :
    splitFrom line (w ++ (c ++ rest)) = (splitFrom line rest).map (c :: ·) := by
  have hstart := trimStart_blank_append hw hc
  have hne : c ++ rest ≠ [] := by
    obtain ⟨d, c', rfl, -⟩ := hc.head
    exact List.cons_ne_nil _ _
  rw [splitFrom]
  simp only [hstart, dif_neg hne]
  split
  · rename_i hnone
    rw [hstart, columnLength?_append hc] at hnone
    cases hnone
  · rename_i n hn
    rw [hstart, columnLength?_append hc] at hn
    obtain rfl := Option.some.inj hn
    rw [List.drop_left, List.take_left]
    cases splitFrom line rest <;> rfl

theorem exists_column_of_trimStart {t : Text} {n : Nat} (ht : Text.trimStart t ≠ [])
    (h : columnLength? (Text.trimStart t) = some n) :
    ∃ w c rest, t = w ++ (c ++ rest) ∧ Text.IsBlank w ∧ IsColumnBefore c rest ∧
      (Text.trimStart t).take n = c ∧ (Text.trimStart t).drop n = rest := by
  have hhead := List.head?_dropWhile_not Text.isSpace t
  have hsplit : t = t.takeWhile Text.isSpace ++ Text.trimStart t :=
    List.takeWhile_append_dropWhile.symm
  obtain ⟨d, t', hd⟩ := List.exists_cons_of_ne_nil ht
  rw [show t.dropWhile Text.isSpace = d :: t' from hd] at hhead
  rw [hd] at h
  obtain ⟨c, rest, hcolumn, hc, rfl⟩ := exists_column_of_columnLength? (by simpa using hhead) h
  rw [hd, hcolumn] at hsplit
  refine ⟨_, c, rest, hsplit, fun _ => List.mem_takeWhile_imp, hc, ?_⟩
  rw [hd, hcolumn, List.take_left, List.drop_left]
  exact ⟨rfl, rfl⟩

theorem splitFrom_eq_ok_iff {line t : Text} {columns : List Text} :
    splitFrom line t = .ok columns ↔ Laid t columns := by
  constructor
  · intro h
    fun_induction splitFrom line t generalizing columns with
    | case1 t hblank =>
      obtain rfl := Except.ok.inj h
      exact .blank (List.dropWhile_eq_nil_iff.1 hblank)
    | case2 t hstart hopen => cases h
    | case3 t hstart n hn e he ih => cases h
    | case4 t hstart n hn columns' hrest ih =>
      obtain ⟨w, c, rest, rfl, hw, hc, htake, hdrop⟩ := exists_column_of_trimStart hstart hn
      obtain rfl := Except.ok.inj h
      rw [hdrop] at ih hrest
      rw [htake]
      exact .column hw hc (ih hrest)
  · intro h
    induction h with
    | blank hw => exact splitFrom_of_trimStart_eq_nil line (trimStart_blank hw)
    | column hw hc _ ih =>
      rw [splitFrom_column line hw hc, ih]
      rfl

theorem eq_of_splitFrom_eq_error {line t : Text} {e : EncodingError}
    (h : splitFrom line t = .error e) : e = .format .unterminatedCode line := by
  fun_induction splitFrom line t with
  | case1 t hblank => cases h
  | case2 t hstart hopen => exact (Except.error.inj h).symm
  | case3 t hstart n hn e' he ih =>
    obtain rfl := Except.error.inj h
    exact ih he
  | case4 t hstart n hn columns hrest ih => cases h

theorem split_eq_ok_iff {line : Text} {columns : List Text} :
    split line = .ok columns ↔ Laid line columns :=
  splitFrom_eq_ok_iff

/-- White space around the four columns of a row. Between two of them there is some, unless the
first of the two is a code column in brackets. -/
structure Spacing (code : Text) where
  start : Text
  first : Text
  second : Text
  third : Text
  last : Text
  start_blank : Text.IsBlank start
  first_blank : Text.IsBlank first
  first_ne : first ≠ []
  second_blank : Text.IsBlank second
  second_ne : second ≠ []
  third_blank : Text.IsBlank third
  third_ne : third ≠ [] ∨ IsBracketed code
  last_blank : Text.IsBlank last

def Spacing.single (code : Text) : Spacing code where
  start := []
  first := [' ']
  second := [' ']
  third := [' ']
  last := []
  start_blank := by decide
  first_blank := by decide
  first_ne := by decide
  second_blank := by decide
  second_ne := by decide
  third_blank := by decide
  third_ne := .inl (by decide)
  last_blank := by decide

def Spacing.line {code : Text} (s : Spacing code) (mnemonic operands flags : Text) : Text :=
  s.start ++ mnemonic ++ s.first ++ operands ++ s.second ++ code ++ s.third ++ flags ++ s.last

theorem isColumnBefore_blank_append {c w : Text} (hc : IsPlain c) (hw : Text.IsBlank w)
    (rest : Text) (hne : w ≠ [] ∨ rest = []) : IsColumnBefore c (w ++ rest) := by
  refine .inl ⟨hc, fun d hd => ?_⟩
  cases w with
  | nil =>
    rw [hne.resolve_left fun h => h rfl] at hd
    cases hd
  | cons e w =>
    obtain rfl := Option.some.inj hd
    exact hw _ List.mem_cons_self

theorem Spacing.laid_line {code : Text} (s : Spacing code) (hcode : IsPlain code ∨ IsBracketed code)
    {mnemonic operands flags : Text} (hmnemonic : IsPlain mnemonic) (hoperands : IsPlain operands)
    (hflags : IsPlain flags) :
    Laid (s.line mnemonic operands flags) [mnemonic, operands, code, flags] := by
  have hcode' : IsColumnBefore code (s.third ++ (flags ++ s.last)) := by
    rcases s.third_ne with hne | hbracketed
    · rcases hcode with hcode | hcode
      · exact isColumnBefore_blank_append hcode s.third_blank _ (.inl hne)
      · exact .inr hcode
    · exact .inr hbracketed
  have hlast : IsColumnBefore flags s.last := by
    have hend := isColumnBefore_blank_append hflags s.last_blank [] (.inr rfl)
    rwa [List.append_nil] at hend
  have h : Laid _ [mnemonic, operands, code, flags] :=
    .column s.start_blank (isColumnBefore_blank_append hmnemonic s.first_blank _ (.inl s.first_ne))
      (.column s.first_blank
        (isColumnBefore_blank_append hoperands s.second_blank _ (.inl s.second_ne))
        (.column s.second_blank hcode' (.column s.third_blank hlast (.blank s.last_blank))))
  simpa only [line, List.append_assoc] using h

end X86Encoding.Columns
