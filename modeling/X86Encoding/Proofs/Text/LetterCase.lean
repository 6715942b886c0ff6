import X86Encoding.Text
import Mathlib.Logic.Relation

set_option autoImplicit false

namespace X86Encoding.Text

theorem toLower_cases {motive : Char → Char → Prop} (own : ∀ c, c.toLower = c → motive c c)
    (capital : ∀ n < 26, motive (Char.ofNat (65 + n)) (Char.ofNat (65 + n)).toLower)
    (c : Char) : motive c c.toLower := by
  by_cases h : c.val ≥ 'A'.val ∧ c.val ≤ 'Z'.val
  · have hlow : 65 ≤ c.toNat := h.1
    have hhigh : c.toNat ≤ 90 := h.2
    have hcapital := capital (c.toNat - 65) (by omega)
    rwa [Nat.add_sub_cancel' hlow, Char.ofNat_toNat] at hcapital
  · have hown : c.toLower = c := dif_neg h
    rw [hown]
    exact own c hown

@[simp] theorem lower_lower (t : Text) : lower (lower t) = lower t := by
  have hchar : ∀ c : Char, c.toLower.toLower = c.toLower :=
    toLower_cases (motive := fun _ d => d.toLower = d) (fun _ h => h) (by decide)
  simp only [lower, List.map_map]
  exact List.map_congr_left fun c _ => hchar c

@[simp] theorem isSpace_toLower (c : Char) : isSpace c.toLower = isSpace c :=
  toLower_cases (motive := fun c d => isSpace d = isSpace c) (fun _ _ => rfl) (by decide) c

/-- Lowering neither makes a character that is no letter nor takes it away. -/
theorem toLower_beq {d : Char} (hd : ∀ n < 26, Char.ofNat (65 + n) ≠ d ∧
    (Char.ofNat (65 + n)).toLower ≠ d) (c : Char) : (c.toLower == d) = (c == d) := by
  refine toLower_cases (motive := fun c c' => (c' == d) = (c == d)) (fun _ _ => rfl) ?_ c
  intro n hn
  rw [beq_eq_false_iff_ne.2 (hd n hn).1, beq_eq_false_iff_ne.2 (hd n hn).2]

theorem splitOnP_lower {p : Char → Bool} (hp : ∀ c, p c.toLower = p c) (t : Text) :
    (lower t).splitOnP p = (t.splitOnP p).map lower := by
  induction t with
  | nil => simp
  | cons c t ih =>
    obtain ⟨piece, pieces, hsplit⟩ := List.exists_cons_of_ne_nil (List.splitOnP_ne_nil p t)
    rw [lower_cons, List.splitOnP_cons_eq_if_modifyHead, List.splitOnP_cons_eq_if_modifyHead, hp,
      ih, hsplit]
    cases p c <;> rfl

@[simp] theorem splitOn_lower (t : Text) : (lower t).splitOn '.' = (t.splitOn '.').map lower := by
  rw [List.splitOn_eq_splitOnP, List.splitOn_eq_splitOnP]
  exact splitOnP_lower (toLower_beq (by decide)) t

@[simp] theorem words_lower (t : Text) : words (lower t) = (words t).map lower := by
  rw [words, splitOnP_lower isSpace_toLower, List.filter_map, words]
  congr 1
  apply List.filter_congr
  intro piece _
  cases piece <;> rfl

/-- What each change keeps is kept by any number of them, made or taken back. -/
theorem iff_of_eqvGen {change : Text → Text → Prop} {p : Text → Prop}
    (hp : ∀ s t, change s t → (p s ↔ p t)) {s t : Text} (h : Relation.EqvGen change s t) :
    p s ↔ p t := by
  induction h with
  | rel s t h => exact hp s t h
  | refl s => exact Iff.rfl
  | symm s t _ ih => exact ih.symm
  | trans s t u _ _ ih ih' => exact ih.trans ih'

end X86Encoding.Text
