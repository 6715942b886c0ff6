import X86Encoding.Text

set_option autoImplicit false

namespace X86Encoding.Text

/-- A text is a last line without line feed, or a line in front of a text. -/
theorem lineInduction {motive : Text → Prop} (last : ∀ t, '\n' ∉ t → motive t)
    (line : ∀ l t, '\n' ∉ l → motive t → motive (l ++ '\n' :: t)) (t : Text) : motive t := by
  by_cases h : '\n' ∈ t
  · obtain ⟨l, rest, ht, hl⟩ := List.eq_append_cons_of_mem h
    rw [ht]
    exact line l rest hl (lineInduction last line rest)
  · exact last t h
termination_by t.length
decreasing_by
  rw [ht, List.length_append, List.length_cons]
  omega

theorem ofPieces_cons (l : Text) {pieces : List Text} (h : pieces ≠ []) :
    ofPieces (l :: pieces) = dropReturn l :: ofPieces pieces := by
  cases pieces with
  | nil => exact absurd rfl h
  | cons p ps => rfl

theorem lines_of_not_mem {t : Text} (h : '\n' ∉ t) : lines t = if t = [] then [] else [t] := by
  rw [lines, List.splitOn_eq_singleton h, ofPieces]

theorem lines_append_cons {l : Text} (h : '\n' ∉ l) (t : Text) :
    lines (l ++ '\n' :: t) = dropReturn l :: lines t := by
  rw [lines, List.splitOn_append_cons_self_of_not_mem h,
    ofPieces_cons l (List.splitOn_ne_nil '\n' t), lines]

theorem dropReturn_of_getLast? {l : Text} (h : l.getLast? ≠ some '\x0d') : dropReturn l = l := by
  rw [List.getLast?_eq_head?_reverse] at h
  unfold dropReturn List.isSuffixOf?
  cases hr : l.reverse with
  | nil => rfl
  | cons c rest =>
    have hc : ¬('\x0d' == c) = true := fun hc => h (by rw [hr, List.head?_cons, beq_iff_eq.1 hc])
    have hnone : List.isPrefixOf? ['\x0d'] (c :: rest) = none := if_neg hc
    rw [List.reverse_singleton, hnone]
    rfl

end X86Encoding.Text
