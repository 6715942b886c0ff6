import X86Encoding.CommandLine.Report
import X86Encoding.Proofs.Table.Loading

/-!
Checking a table and loading it. Checking counts rows, entries and failures on its own, row by row
beside the loader; after every row the counts are those of what is loaded. So the report of a check
is about the table that is loaded from the same text.
-/

set_option autoImplicit false

namespace X86Encoding

theorem OpcodeTable.addRows_cons (loaded : Loaded) (row : Nat × Except EncodingError Row)
    (rows : List (Nat × Except EncodingError Row)) :
    addRows loaded (row :: rows) = addRows (addRows loaded [row]) rows := by
  rw [addRows, addRows]
  split <;> rfl

namespace CommandLine

structure Tally.Counts (tally : Tally) (rows : Nat) (loaded : OpcodeTable.Loaded) : Prop where
  rows : tally.rows = rows
  encodings : tally.encodings = loaded.table.size
  failures : tally.failures = loaded.errors

namespace Tally

variable {tally : Tally} {n : Nat} {loaded : OpcodeTable.Loaded}

theorem Counts.addFailure (h : Counts tally n loaded) (line : Nat) (e : EncodingError) :
    Counts (tally.addFailure line e) (n + 1)
      { loaded with errors := loaded.errors ++ [⟨line, e⟩] } where
  rows := congrArg (· + 1) h.rows
  encodings := h.encodings
  failures := by rw [Tally.addFailure, h.failures]

theorem Counts.addRow (h : Counts tally n loaded) (line : Nat) (row : Except EncodingError Row) :
    Counts (tally.addRow line row) (n + 1) (OpcodeTable.addRows loaded [(line, row)]) := by
  cases row with
  | error e => exact h.addFailure line e
  | ok r =>
    rw [OpcodeTable.addRows, Tally.addRow, OpcodeTable.entriesOfLine]
    cases OpcodeTable.entriesOfRow r with
    | error e => exact h.addFailure line e
    | ok entries =>
      refine ⟨congrArg (· + 1) h.rows, ?_, h.failures⟩
      rw [h.encodings]
      exact List.length_append.symm

theorem Counts.addRows (h : Counts tally n loaded) (rows : List (Nat × Except EncodingError Row)) :
    Counts (rows.foldl (fun tally (line, row) => tally.addRow line row) tally) (n + rows.length)
      (OpcodeTable.addRows loaded rows) := by
  induction rows generalizing tally n loaded with
  | nil => exact h
  | cons r rows ih =>
    have hnext := ih (h.addRow r.1 r.2)
    rw [OpcodeTable.addRows_cons, List.length_cons, Nat.add_comm rows.length, ← Nat.add_assoc]
    exact hnext

end Tally

end CommandLine
end X86Encoding
