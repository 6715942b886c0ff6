import X86Encoding.Proofs.Table.Extension
import X86Encoding.Proofs.Tiles
import X86Encoding.Table.Sweep

/-!
A sweep accounts for every byte exactly once. It is what a loop lists that goes on behind each
answer until no byte is left, and from any of its places on it is the sweep of what is left
there.
-/

set_option autoImplicit false

namespace X86Encoding

namespace OpcodeTable

variable {t : OpcodeTable} {bytes : List UInt8} {mode : Mode} {offset : Nat}
  {items : List (Nat × Except DecodeError Instruction)}

theorem answerSize_pos (t : OpcodeTable) (bytes : List UInt8) (mode : Mode) :
    0 < answerSize (t.decode bytes mode) := by
  cases h : t.decode bytes mode with
  | error e => exact Nat.one_pos
  | ok d =>
    obtain ⟨p, -, -, -, -, -, hend, -, -⟩ := point_of_decode h
    exact Nat.lt_of_lt_of_le (Nat.succ_pos _) hend

theorem answerSize_le (t : OpcodeTable) (mode : Mode) (h : bytes ≠ []) :
    answerSize (t.decode bytes mode) ≤ bytes.length := by
  cases hd : t.decode bytes mode with
  | error e => exact List.length_pos_iff.2 h
  | ok d =>
    obtain ⟨p, -, -, -, -, -, -, -, hlen⟩ := point_of_decode hd
    exact hlen

theorem add_answerSize_le (t : OpcodeTable) (mode : Mode) (h : offset < bytes.length) :
    offset + answerSize (t.decode (bytes.drop offset) mode) ≤ bytes.length := by
  have hne : bytes.drop offset ≠ [] := by simp [h]
  have hsize := t.answerSize_le mode hne
  rw [List.length_drop] at hsize
  omega

theorem sweepFrom_of_ne_nil (t : OpcodeTable) (mode : Mode) (offset : Nat) (h : bytes ≠ []) :
    t.sweepFrom mode offset bytes =
      (offset, t.decode bytes mode) ::
        t.sweepFrom mode (offset + answerSize (t.decode bytes mode))
          (bytes.drop (answerSize (t.decode bytes mode))) := by
  cases bytes with
  | nil => exact absurd rfl h
  | cons b rest => rw [sweepFrom, List.drop_cons (t.answerSize_pos (b :: rest) mode)]

/-- The loop from `offset` on, and what it lists. It ends where no byte is left. -/
inductive Sweeps (t : OpcodeTable) (bytes : List UInt8) (mode : Mode) :
    Nat → List (Nat × Except DecodeError Instruction) → Prop where
  | stop {offset : Nat} : bytes.length ≤ offset → Sweeps t bytes mode offset []
  | next {offset : Nat} {answer : Except DecodeError Instruction}
      {items : List (Nat × Except DecodeError Instruction)} : offset < bytes.length →
      t.decode (bytes.drop offset) mode = answer →
      Sweeps t bytes mode (offset + answerSize answer) items →
      Sweeps t bytes mode offset ((offset, answer) :: items)

theorem Sweeps.eq_sweepFrom (h : t.Sweeps bytes mode offset items) :
    items = t.sweepFrom mode offset (bytes.drop offset) := by
  induction h with
  | stop hle => rw [List.drop_eq_nil_iff.2 hle, sweepFrom]
  | next hlt hanswer hrest ih =>
    rw [sweepFrom_of_ne_nil t mode _ (by simp [hlt]), hanswer, List.drop_drop, ih]

/-- The loop ends, for the bytes that are left become fewer. -/
theorem sweeps_sweepFrom (t : OpcodeTable) (bytes : List UInt8) (mode : Mode) (offset : Nat) :
    t.Sweeps bytes mode offset (t.sweepFrom mode offset (bytes.drop offset)) := by
  induction hn : bytes.length - offset using Nat.strongRecOn generalizing offset with
  | ind n ih =>
    by_cases hlt : offset < bytes.length
    · have hpos := t.answerSize_pos (bytes.drop offset) mode
      rw [sweepFrom_of_ne_nil t mode offset (by simp [hlt]), List.drop_drop]
      exact .next hlt rfl (ih _ (by omega) _ rfl)
    · rw [List.drop_eq_nil_iff.2 (Nat.le_of_not_lt hlt), sweepFrom]
      exact .stop (Nat.le_of_not_lt hlt)

theorem sweeps_iff : t.Sweeps bytes mode 0 items ↔ items = t.sweep bytes mode := by
  constructor
  · intro h
    rw [h.eq_sweepFrom, List.drop_zero, sweep]
  · rintro rfl
    have h := t.sweeps_sweepFrom bytes mode 0
    rwa [List.drop_zero] at h

theorem sweeps_sweep (t : OpcodeTable) (bytes : List UInt8) (mode : Mode) :
    t.Sweeps bytes mode 0 (t.sweep bytes mode) :=
  sweeps_iff.2 rfl

def extent (item : Nat × Except DecodeError Instruction) : Nat × Nat :=
  (item.1, answerSize item.2)

theorem Sweeps.tiles (h : t.Sweeps bytes mode offset items) (hle : offset ≤ bytes.length) :
    Tiles bytes.length offset (items.map extent) := by
  induction h with
  | stop hge =>
    rw [Nat.le_antisymm hle hge]
    exact .nil
  | @next offset answer items hlt hanswer hrest ih =>
    subst hanswer
    exact .cons (t.answerSize_pos _ mode) (ih (t.add_answerSize_le mode hlt))

theorem Sweeps.answer_eq (h : t.Sweeps bytes mode offset items) :
    ∀ item ∈ items, item.2 = t.decode (bytes.drop item.1) mode := by
  induction h with
  | stop hle => simp
  | next hlt hanswer hrest ih => exact List.forall_mem_cons.2 ⟨hanswer.symm, ih⟩

/-- What the loop lists from one of its places on is what it lists when it starts there. -/
theorem Sweeps.suffix {before after : List (Nat × Except DecodeError Instruction)}
    {item : Nat × Except DecodeError Instruction}
    (h : t.Sweeps bytes mode offset (before ++ item :: after)) :
    t.Sweeps bytes mode item.1 (item :: after) := by
  induction before generalizing offset with
  | nil =>
    cases h with
    | next hlt hanswer hrest => exact .next hlt hanswer hrest
  | cons first before ih =>
    cases h with
    | next hlt hanswer hrest => exact ih hrest

theorem Sweeps.lt_length (h : t.Sweeps bytes mode offset items) :
    ∀ item ∈ items, item.1 < bytes.length := by
  induction h with
  | stop hle => simp
  | next hlt hanswer hrest ih => exact List.forall_mem_cons.2 ⟨hlt, ih⟩

def shift (k : Nat) (item : Nat × Except DecodeError Instruction) :
    Nat × Except DecodeError Instruction :=
  (k + item.1, item.2)

theorem sweepFrom_add (t : OpcodeTable) (mode : Mode) (k offset : Nat) (bytes : List UInt8) :
    t.sweepFrom mode (k + offset) bytes = (t.sweepFrom mode offset bytes).map (shift k) := by
  fun_induction sweepFrom t mode offset bytes with
  | case1 offset => rw [sweepFrom, List.map_nil]
  | case2 offset b rest answer ih =>
    rw [sweepFrom, List.map_cons, ← ih, Nat.add_assoc]
    rfl

theorem sweepFrom_eq_map (t : OpcodeTable) (mode : Mode) (offset : Nat) (bytes : List UInt8) :
    t.sweepFrom mode offset bytes = (t.sweep bytes mode).map (shift offset) := by
  rw [sweep, ← sweepFrom_add, Nat.add_zero]

/-- The loop ends; its items lie in a row from the first byte to the last, each with the answer
for the bytes that are left at its place; and from each place on the sweep starts anew. -/
theorem sweep_tiles (t : OpcodeTable) (bytes : List UInt8) (mode : Mode) :
    (∀ items, t.Sweeps bytes mode 0 items ↔ items = t.sweep bytes mode) ∧
    (t.sweep bytes mode = [] ↔ bytes = []) ∧
    Tiles bytes.length 0 ((t.sweep bytes mode).map extent) ∧
    (∀ i < bytes.length,
      (t.sweep bytes mode).countP
        (fun item => item.1 ≤ i && i < item.1 + answerSize item.2) = 1) ∧
    (∀ item ∈ t.sweep bytes mode, item.2 = t.decode (bytes.drop item.1) mode) ∧
    (∀ before item after, t.sweep bytes mode = before ++ item :: after →
      item :: after = (t.sweep (bytes.drop item.1) mode).map (shift item.1)) := by
  have hsweeps := t.sweeps_sweep bytes mode
  have htiles := hsweeps.tiles (Nat.zero_le _)
  refine ⟨fun items => sweeps_iff, ?_, htiles, fun i hi => ?_, hsweeps.answer_eq, ?_⟩
  · constructor
    · intro hnil
      rw [hnil, List.map_nil] at htiles
      cases hb : bytes with
      | nil => rfl
      | cons b rest =>
        rw [hb] at htiles
        cases htiles
    · rintro rfl
      rw [sweep, sweepFrom]
  · have hcount := htiles.countP_covers (Nat.zero_le i) hi
    rw [List.countP_map] at hcount
    exact hcount
  · intro before item after heq
    rw [heq] at hsweeps
    rw [hsweeps.suffix.eq_sweepFrom, sweepFrom_eq_map]

theorem sweep_tiles_adjust :
    ∃ d, adjustTable.sweep [0xD5, 0x0A, 0xFF, 0xD5] .ia32 =
        [(0, .ok d), (2, .error (.noMatch [0xFF])), (3, .error (.truncated 2 1))] ∧
      d.length = 2 ∧ Tiles 4 0 [(0, 2), (2, 1), (3, 1)] ∧
      [(2, .error (.noMatch [0xFF])), (3, .error (.truncated 2 1))] =
        (adjustTable.sweep [0xFF, 0xD5] .ia32).map (shift 2) := by
  obtain ⟨d, hd, hl⟩ : ∃ d, adjustTable.decode [0xD5, 0x0A, 0xFF, 0xD5] .ia32 = .ok d ∧
      d.length = 2 := ⟨_, rfl, rfl⟩
  have hbad : adjustTable.decode [0xFF, 0xD5] .ia32 = .error (.noMatch [0xFF]) := rfl
  have hcut : adjustTable.decode [0xD5] .ia32 = .error (.truncated 2 1) := rfl
  have hsweep : adjustTable.sweep [0xD5, 0x0A, 0xFF, 0xD5] .ia32 =
      [(0, .ok d), (2, .error (.noMatch [0xFF])), (3, .error (.truncated 2 1))] := by
    simp [sweep, sweepFrom, hd, hbad, hcut, answerSize, hl]
  obtain ⟨-, -, htiles, -, -, hsuffix⟩ := sweep_tiles adjustTable [0xD5, 0x0A, 0xFF, 0xD5] .ia32
  refine ⟨d, hsweep, hl, ?_, hsuffix [(0, .ok d)] _ _ hsweep⟩
  rw [hsweep] at htiles
  simpa [extent, answerSize, hl] using htiles

end OpcodeTable
end X86Encoding
