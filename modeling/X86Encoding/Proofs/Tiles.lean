set_option autoImplicit false

namespace X86Encoding

/-- Pieces, by place and size, that lie one behind the other up to `stop`. None is empty. -/
inductive Tiles (stop : Nat) : Nat → List (Nat × Nat) → Prop where
  | nil : Tiles stop stop []
  | cons {start size : Nat} {pieces : List (Nat × Nat)} : 0 < size →
      Tiles stop (start + size) pieces → Tiles stop start ((start, size) :: pieces)

namespace Tiles

variable {stop start i : Nat} {pieces : List (Nat × Nat)}

theorem size_pos (h : Tiles stop start pieces) : ∀ piece ∈ pieces, 0 < piece.2 := by
  induction h with
  | nil => simp
  | cons hsize htiles ih => exact List.forall_mem_cons.2 ⟨hsize, ih⟩

def covers (i : Nat) (piece : Nat × Nat) : Bool := piece.1 ≤ i && i < piece.1 + piece.2

theorem countP_covers_of_lt (h : Tiles stop start pieces) (hi : i < start) :
    pieces.countP (covers i) = 0 := by
  induction h with
  | nil => rfl
  | cons hsize htiles ih =>
    rw [List.countP_cons, ih (by omega)]
    simp [covers, Nat.not_le.2 hi]

theorem countP_covers (h : Tiles stop start pieces) (hstart : start ≤ i) (hstop : i < stop) :
    pieces.countP (covers i) = 1 := by
  induction h with
  | nil => omega
  | @cons start size pieces hsize htiles ih =>
    rw [List.countP_cons]
    by_cases hi : i < start + size
    · rw [htiles.countP_covers_of_lt hi]
      simp [covers, hstart, hi]
    · rw [ih (by omega)]
      simp [covers, hi]

end Tiles
end X86Encoding
