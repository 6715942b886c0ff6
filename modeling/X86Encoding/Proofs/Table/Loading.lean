import X86Encoding.Proofs.Row.Conditions
import X86Encoding.Proofs.Text.Lines
import X86Encoding.Table.Basic

/-!
A table is loaded from a text line by line: a line gives its entries or one error, whatever
stands in the others. So two texts can be loaded one after the other, and only the line numbers
of the second one move.
-/

set_option autoImplicit false

namespace X86Encoding

namespace Row

def readFrom (n : Nat) (lines : List Text) : List (Nat × Except EncodingError Row) :=
  (lines.zipIdx n).filterMap fun (line, number) =>
    if Columns.isIgnored line then none else some (number, ofLine line)

theorem readAll_eq (t : Text) : readAll t = readFrom 1 (Text.lines t) := rfl

section ReadFrom

variable (n : Nat) (line : Text) (lines : List Text)

theorem readFrom_cons :
    readFrom n (line :: lines) = readFrom n [line] ++ readFrom (n + 1) lines := by
  rw [readFrom, List.zipIdx_cons, ← List.singleton_append, List.filterMap_append]
  rfl

theorem readFrom_singleton :
    readFrom n [line] = if Columns.isIgnored line then [] else [(n, ofLine line)] := by
  cases h : Columns.isIgnored line <;> simp [readFrom, h]

theorem readFrom_add (k : Nat) :
    readFrom (n + k) lines = (readFrom n lines).map fun r => (r.1 + k, r.2) := by
  induction lines generalizing n with
  | nil => rfl
  | cons line lines ih =>
    rw [readFrom_cons, readFrom_cons n, List.map_append, Nat.add_right_comm, ih,
      readFrom_singleton, readFrom_singleton]
    split <;> rfl

variable {n lines}

theorem mem_readFrom {r : Nat × Except EncodingError Row} :
    r ∈ readFrom n lines ↔ ∃ i line, lines[i]? = some line ∧ Columns.isIgnored line = false ∧
      r = (n + i, ofLine line) := by
  simp only [readFrom, List.mem_filterMap, Prod.exists, List.mk_mem_zipIdx_iff_le_and_getElem?_sub]
  constructor
  · rintro ⟨line, number, ⟨hle, hline⟩, hr⟩
    split at hr
    · cases hr
    · rename_i hi
      cases hr
      exact ⟨number - n, line, hline, Bool.not_eq_true _ ▸ hi, by rw [Nat.add_sub_cancel' hle]⟩
  · rintro ⟨i, line, hline, hi, rfl⟩
    exact ⟨line, n + i, ⟨Nat.le_add_right n i, by rw [Nat.add_sub_cancel_left, hline]⟩,
      by rw [hi]; rfl⟩

theorem pairwise_readFrom : (readFrom n lines).Pairwise fun r r' => r.1 < r'.1 := by
  induction lines generalizing n with
  | nil => exact .nil
  | cons line lines ih =>
    rw [readFrom_cons, readFrom_singleton]
    split
    · exact ih
    · refine List.pairwise_cons.2 ⟨fun r hr => ?_, ih⟩
      obtain ⟨i, line', -, -, rfl⟩ := mem_readFrom.1 hr
      exact Nat.lt_of_lt_of_le (Nat.lt_succ_self n) (Nat.le_add_right (n + 1) i)

end ReadFrom

theorem readFrom_lines_append {a : Text} (h : a.getLast? ≠ some '\x0d') (b : Text) (n : Nat) :
    readFrom n (Text.lines (a ++ '\n' :: b)) =
      readFrom n (Text.lines a) ++ readFrom (n + (1 + a.count '\n')) (Text.lines b) := by
  induction a using Text.lineInduction generalizing n with
  | last t ht =>
    -- the last line, which now ends in a line feed: nothing is dropped from it, and a blank one,
    -- which was no line before, is ignored
    rw [Text.lines_append_cons ht, Text.dropReturn_of_getLast? h, readFrom_cons,
      Text.lines_of_not_mem ht, List.count_eq_zero.2 ht]
    split
    · rename_i hnil
      rw [hnil]
      rfl
    · rfl
  | line l t hl ih =>
    have ht : t.getLast? ≠ some '\x0d' := fun ht => h (by
      rw [List.getLast?_append, List.getLast?_cons, ht]
      rfl)
    have hcount : n + (1 + (l ++ '\n' :: t).count '\n') = n + 1 + (1 + t.count '\n') := by
      rw [List.count_append, List.count_eq_zero.2 hl, List.count_cons_self]
      omega
    rw [List.append_assoc, List.cons_append, Text.lines_append_cons hl, Text.lines_append_cons hl,
      readFrom_cons, readFrom_cons n _ (Text.lines t), ih ht, List.append_assoc, hcount]

end Row

namespace OpcodeTable

def addedBy (row : Except EncodingError Row) : List TableEntry :=
  (entriesOfLine row).toOption.getD []

def error? (r : Nat × Except EncodingError Row) : Option RowError :=
  match entriesOfLine r.2 with
  | .ok _ => none
  | .error e => some ⟨r.1, e⟩

theorem addRows_eq (loaded : Loaded) (rows : List (Nat × Except EncodingError Row)) :
    addRows loaded rows = ⟨loaded.table.append (rows.flatMap fun r => addedBy r.2),
      loaded.errors ++ rows.filterMap error?⟩ := by
  induction rows generalizing loaded with
  | nil => simp [addRows, append]
  | cons r rows ih =>
    obtain ⟨n, row⟩ := r
    rw [addRows]
    cases h : entriesOfLine row <;>
      simp [ih, append, addedBy, error?, h, Except.toOption]

theorem ofText_eq (t : Text) : ofText t =
    ⟨⟨(Row.readAll t).flatMap fun r => addedBy r.2⟩, (Row.readAll t).filterMap error?⟩ := by
  rw [ofText, addRows_eq]
  rfl

theorem error?_eq_some {r : Nat × Except EncodingError Row} {e : RowError} :
    error? r = some e ↔ entriesOfLine r.2 = .error e.error ∧ r.1 = e.line := by
  obtain ⟨n, row⟩ := r
  obtain ⟨line, fault⟩ := e
  unfold error?
  cases entriesOfLine row <;> simp [and_comm]

theorem error?_add (k : Nat) (r : Nat × Except EncodingError Row) :
    error? (r.1 + k, r.2) = (error? r).map fun e => { e with line := e.line + k } := by
  unfold error?
  cases entriesOfLine r.2 <;> rfl

/-- What a line gives on its own: nothing where it is ignored, else the entries of its row or a
fault. -/
def loadLine (line : Text) : Except EncodingError (List TableEntry) :=
  if Columns.isIgnored line then .ok [] else entriesOfLine (Row.ofLine line)

/-- Every line has its own part in a table and its errors: a fault adds nothing to the table, and
stands among the errors once, under the number of the line. -/
structure IsByLine (lines : List Text) (loaded : Loaded) : Prop where
  entries : loaded.table.entries = lines.flatMap fun line => (loadLine line).toOption.getD []
  errors : ∀ e : RowError, e ∈ loaded.errors ↔
    ∃ i line, lines[i]? = some line ∧ loadLine line = .error e.error ∧ e.line = i + 1
  increasing : loaded.errors.Pairwise fun e e' => e.line < e'.line

theorem flatMap_addedBy (n : Nat) (lines : List Text) :
    ((Row.readFrom n lines).flatMap fun r => addedBy r.2) =
      lines.flatMap fun line => (loadLine line).toOption.getD [] := by
  induction lines generalizing n with
  | nil => rfl
  | cons line lines ih =>
    rw [Row.readFrom_cons, List.flatMap_append, ih, List.flatMap_cons, Row.readFrom_singleton,
      loadLine]
    split
    · rfl
    · rw [List.flatMap_singleton, addedBy]

theorem isByLine_ofText (t : Text) : IsByLine (Text.lines t) (ofText t) := by
  rw [ofText_eq, Row.readAll_eq]
  refine ⟨flatMap_addedBy 1 _, fun e => ?_, Row.pairwise_readFrom.filterMap _ ?_⟩
  · simp only [List.mem_filterMap, Row.mem_readFrom, error?_eq_some]
    constructor
    · rintro ⟨r, ⟨i, line, hline, hi, rfl⟩, he, hn⟩
      refine ⟨i, line, hline, ?_, by omega⟩
      rw [loadLine, hi]
      exact he
    · rintro ⟨i, line, hline, he, hn⟩
      unfold loadLine at he
      split at he
      · cases he
      · rename_i hi
        exact ⟨_, ⟨i, line, hline, Bool.not_eq_true _ ▸ hi, rfl⟩, he, by omega⟩
  · intro r r' hr e he e' he'
    rw [← (error?_eq_some.1 he).2, ← (error?_eq_some.1 he').2]
    exact hr

theorem entriesOfRow_error_iff {r : Row} :
    (∃ e, entriesOfRow r = .error e) ↔ r.isPseudo = false ∧ ∃ code, r.code = some code ∧
      ∃ c ∈ Row.conditionsOf code, ∃ e, code.compile (r.context c) = .error e := by
  unfold entriesOfRow
  cases hp : r.isPseudo with
  | true => simp
  | false =>
    obtain ⟨code, hc⟩ : ∃ code, r.code = some code := by
      rw [Row.isPseudo, Bool.or_eq_false_iff, Option.isNone_eq_false_iff] at hp
      exact Option.isSome_iff_exists.1 hp.1
    simp only [hc, Option.some.injEq, exists_eq_left', true_and, ← Row.opcodes_error_iff hc]
    cases r.opcodes <;> simp

/-- Two texts are loaded as one, unless a carriage return at the end of the first would become
part of a line end. Each line stands for itself, and a row gives nothing if it cannot be compiled
for one of its conditions. -/
theorem ofText_append {a : Text} (h : a.getLast? ≠ some '\x0d') (b : Text) :
    (ofText (a ++ '\n' :: b)).table.entries =
        (ofText a).table.entries ++ (ofText b).table.entries ∧
      (ofText (a ++ '\n' :: b)).errors = (ofText a).errors ++
        (ofText b).errors.map (fun e => { e with line := e.line + (1 + a.count '\n') }) ∧
      (∀ t, IsByLine (Text.lines t) (ofText t)) ∧
      ∀ r : Row, (∃ e, entriesOfRow r = .error e) ↔ r.isPseudo = false ∧
        ∃ code, r.code = some code ∧
          ∃ c ∈ Row.conditionsOf code, ∃ e, code.compile (r.context c) = .error e := by
  have hrows : Row.readAll (a ++ '\n' :: b) = Row.readAll a ++
      (Row.readAll b).map fun r => (r.1 + (1 + a.count '\n'), r.2) := by
    simp only [Row.readAll_eq, Row.readFrom_lines_append h, Row.readFrom_add]
  refine ⟨?_, ?_, isByLine_ofText, fun r => entriesOfRow_error_iff⟩
  · simp only [ofText_eq, hrows, List.flatMap_append, List.flatMap_map]
  · have hlater : (error? ∘ fun r => (r.1 + (1 + a.count '\n'), r.2)) = fun r => (error? r).map
        fun e => { e with line := e.line + (1 + a.count '\n') } := funext (error?_add _)
    simp only [ofText_eq, hrows, List.filterMap_append, List.filterMap_map, List.map_filterMap,
      hlater]

theorem ofText_append_misplaced :
    let a := "AAA void [ 37] 8086\nJcc imm [i: 71+c rel8] 8086".toList
    let b := "; flags\x0d\nSTC void [ f9] 8086\x0d\nXYZ void [ zz] 8086".toList
    (ofText a).errors.map (·.line) = [2] ∧ (ofText b).errors.map (·.line) = [3] ∧
      (ofText (a ++ '\n' :: b)).table.entries.map (·.mnemonic) = ["aaa".toList, "stc".toList] ∧
      (ofText (a ++ '\n' :: b)).errors.map (·.line) = [2, 5] := by
  intro a b
  have h : a.getLast? ≠ some '\x0d' := by decide +kernel
  have hcount : a.count '\n' = 1 := by decide +kernel
  have ha : (ofText a).table.entries.map (·.mnemonic) = ["aaa".toList] ∧
      (ofText a).errors.map (·.line) = [2] := by
    decide +kernel
  have hb : (ofText b).table.entries.map (·.mnemonic) = ["stc".toList] ∧
      (ofText b).errors.map (·.line) = [3] := by
    decide +kernel
  obtain ⟨hentries, herrors, -, -⟩ := ofText_append h b
  refine ⟨ha.2, hb.2, ?_, ?_⟩
  · rw [hentries, List.map_append, ha.1, hb.1]
    rfl
  · have hshift : ((ofText b).errors.map fun e => { e with line := e.line + (1 + 1) }).map
        (·.line) = ((ofText b).errors.map (·.line)).map (· + 2) := by
      rw [List.map_map, List.map_map]
      rfl
    rw [herrors, List.map_append, ha.2, hcount, hshift, hb.2]
    rfl

end OpcodeTable
end X86Encoding
