import X86Encoding.Proofs.Table.Tiling

/-!
Sweeping with more bytes at the end. An entry that lacks bytes is passed over as long as another
one matches; once its bytes are there it may match as well, and the answer becomes an ambiguity.
Nothing else unsettles an instruction, so the items of a clean sweep stay up to the first place
where such an entry returns.
-/

set_option autoImplicit false

namespace X86Encoding

open DecodePoint

theorem DecodePoint.locate_append {bytes : List UInt8} {mode : Mode} {p : DecodePoint}
    (more : List UInt8) (h : locate bytes mode = .ok p) :
    locate (bytes ++ more) mode = .ok (p.extend more) := by
  have hc := locate_continues bytes more mode
  rw [h] at hc
  generalize locate (bytes ++ more) mode = r at hc
  cases hc
  rfl

namespace OpcodeTable

variable {t : OpcodeTable} {bytes : List UInt8} {mode : Mode} {p : DecodePoint}
  {d : Instruction} (more : List UInt8)

theorem decode_append_eq_verdict (t : OpcodeTable) (h : locate bytes mode = .ok p) :
    t.decode (bytes ++ more) mode = verdict (p.extend more) (t.trials (p.extend more)) := by
  rw [decode_eq_locate, locate_append more h]

/-- The entries that lack bytes at the end of `bytes` and match once `more` follows. -/
def returning (t : OpcodeTable) (bytes more : List UInt8) (mode : Mode) : List TableEntry :=
  match locate bytes mode with
  | .error _ => []
  | .ok p => (t.matching (p.extend more)).filter fun e => ¬ p.IsReadable e.opcode

theorem returning_eq_nil_iff (h : locate bytes mode = .ok p) :
    t.returning bytes more mode = [] ↔
      ∀ e ∈ t.matching (p.extend more), p.IsReadable e.opcode := by
  simp [returning, h]

theorem decode_append_ok_iff (h : t.decode bytes mode = .ok d) :
    t.decode (bytes ++ more) mode = .ok d ↔ t.returning bytes more mode = [] := by
  obtain ⟨p, hp, hv, hb, -, -, -, -, hlen⟩ := point_of_decode h
  rw [decode_append_eq_verdict more t hp, returning_eq_nil_iff more hp]
  constructor
  · intro hext e he
    have ho := t.outcome_verdict (p.extend more)
    rw [hext] at ho
    cases ho with
    | decoded hh hall hmax hfits =>
      apply isReadable_of_lengthOf_le more
      rw [hall e he, hb]
      exact hlen
  · intro hall
    exact verdict_extend_ok more (matching_extend more hall) hv

theorem decode_append_of_returning (h : t.decode bytes mode = .ok d)
    (hr : t.returning bytes more mode ≠ []) :
    ∃ names, t.decode (bytes ++ more) mode = .error (.ambiguous names) := by
  have hrefines := t.decode_refines bytes more mode
  rw [h] at hrefines
  rcases hrefines with hok | hambiguous
  · exact absurd ((decode_append_ok_iff more h).1 hok) hr
  · exact hambiguous

/-- Items whose answers stay are listed again, whatever comes behind them. -/
theorem Sweeps.append {offset : Nat}
    {before after : List (Nat × Except DecodeError Instruction)}
    (h : t.Sweeps bytes mode offset (before ++ after)) (hoffset : offset ≤ bytes.length)
    (hstay : ∀ item ∈ before, t.decode (bytes.drop item.1 ++ more) mode = item.2) :
    ∃ place ≤ bytes.length, t.Sweeps bytes mode place after ∧
      ∀ items, t.Sweeps (bytes ++ more) mode place items →
        t.Sweeps (bytes ++ more) mode offset (before ++ items) := by
  induction before generalizing offset with
  | nil => exact ⟨offset, hoffset, h, fun items hitems => hitems⟩
  | cons item before ih =>
    obtain ⟨hitem, hbefore⟩ := List.forall_mem_cons.1 hstay
    cases h with
    | @next offset answer _ hlt hanswer hrest =>
      have hend := t.add_answerSize_le mode hlt
      rw [hanswer] at hend
      obtain ⟨place, hplace, hafter, hlist⟩ := ih hrest hend hbefore
      refine ⟨place, hplace, hafter, fun items hitems => .next ?_ ?_ (hlist items hitems)⟩
      · rw [List.length_append]
        omega
      · rw [List.drop_append_of_le_length hoffset]
        exact hitem

/-- Where all answers stay, the sweep of the longer input goes on with that of the new bytes. -/
theorem sweep_append_of_stay
    (hstay : ∀ item ∈ t.sweep bytes mode, t.decode (bytes.drop item.1 ++ more) mode = item.2) :
    t.sweep (bytes ++ more) mode =
      t.sweep bytes mode ++ (t.sweep more mode).map (shift bytes.length) := by
  have h := t.sweeps_sweep bytes mode
  rw [← List.append_nil (t.sweep bytes mode)] at h
  obtain ⟨place, hplace, hend, hlist⟩ := h.append more (Nat.zero_le _) hstay
  have hplace : place = bytes.length := by
    cases hend with
    | stop hge => omega
  subst hplace
  have hmore := t.sweeps_sweepFrom (bytes ++ more) mode bytes.length
  rw [List.drop_left, sweepFrom_eq_map] at hmore
  exact (sweeps_iff.1 (hlist _ hmore)).symm

theorem sweep_append_of_stay_before
    {before after : List (Nat × Except DecodeError Instruction)}
    {item : Nat × Except DecodeError Instruction}
    (h : t.sweep bytes mode = before ++ item :: after)
    (hstay : ∀ item ∈ before, t.decode (bytes.drop item.1 ++ more) mode = item.2) :
    ∃ rest, t.sweep (bytes ++ more) mode =
      before ++ (item.1, t.decode (bytes.drop item.1 ++ more) mode) :: rest := by
  have hsweeps := t.sweeps_sweep bytes mode
  rw [h] at hsweeps
  obtain ⟨place, hplace, hitem, hlist⟩ := hsweeps.append more (Nat.zero_le _) hstay
  cases hitem with
  | @next _ answer _ hlt hanswer hrest =>
    have hnext : t.Sweeps (bytes ++ more) mode place
        ((place, t.decode (bytes.drop place ++ more) mode) :: _) :=
      .next (by rw [List.length_append]; omega) (by rw [List.drop_append_of_le_length hplace])
        (t.sweeps_sweepFrom (bytes ++ more) mode _)
    exact ⟨_, (sweeps_iff.1 (hlist _ hnext)).symm⟩

/-- The items of a clean sweep are the first ones of a sweep with more bytes exactly when no entry
returns at their places, and then the new bytes are swept by themselves. At the first place where
one returns the sweep lists an ambiguity. -/
theorem sweep_append (hok : ∀ item ∈ t.sweep bytes mode, ∃ d, item.2 = .ok d) :
    (t.sweep bytes mode <+: t.sweep (bytes ++ more) mode ↔
      ∀ item ∈ t.sweep bytes mode, t.returning (bytes.drop item.1) more mode = []) ∧
    ((∀ item ∈ t.sweep bytes mode, t.returning (bytes.drop item.1) more mode = []) →
      t.sweep (bytes ++ more) mode =
        t.sweep bytes mode ++ (t.sweep more mode).map (shift bytes.length)) ∧
    (∀ before item after, t.sweep bytes mode = before ++ item :: after →
      (∀ earlier ∈ before, t.returning (bytes.drop earlier.1) more mode = []) →
      t.returning (bytes.drop item.1) more mode ≠ [] →
      ∃ names rest, t.sweep (bytes ++ more) mode =
        before ++ (item.1, .error (.ambiguous names)) :: rest) := by
  have hanswer := (t.sweeps_sweep bytes mode).answer_eq
  -- an item stays exactly when no entry returns at its place
  have hstay : ∀ item ∈ t.sweep bytes mode,
      (t.decode (bytes.drop item.1 ++ more) mode = item.2 ↔
        t.returning (bytes.drop item.1) more mode = []) := by
    intro item hitem
    obtain ⟨d, hd⟩ := hok item hitem
    rw [hd]
    exact decode_append_ok_iff more ((hanswer item hitem).symm.trans hd)
  have hall : (∀ item ∈ t.sweep bytes mode, t.returning (bytes.drop item.1) more mode = []) →
      t.sweep (bytes ++ more) mode =
        t.sweep bytes mode ++ (t.sweep more mode).map (shift bytes.length) := fun hnone =>
    sweep_append_of_stay more fun item hitem => (hstay item hitem).2 (hnone item hitem)
  refine ⟨⟨fun hkept item hitem => ?_, fun hnone => ?_⟩, hall, ?_⟩
  · have hlt := (t.sweeps_sweep bytes mode).lt_length item hitem
    have hlong := (t.sweeps_sweep (bytes ++ more) mode).answer_eq item (hkept.subset hitem)
    rw [List.drop_append_of_le_length (Nat.le_of_lt hlt)] at hlong
    exact (hstay item hitem).1 hlong.symm
  · rw [hall hnone]
    exact List.prefix_append _ _
  · intro before item after heq hbefore hitem
    have hmem : item ∈ t.sweep bytes mode := by simp [heq]
    obtain ⟨d, hd⟩ := hok item hmem
    obtain ⟨names, hnames⟩ :=
      decode_append_of_returning more ((hanswer item hmem).symm.trans hd) hitem
    obtain ⟨rest, hrest⟩ := sweep_append_of_stay_before more heq fun earlier hearlier =>
      (hstay earlier (by simp [heq, hearlier])).2 (hbefore earlier hearlier)
    rw [hnames] at hrest
    exact ⟨names, rest, hrest⟩

/-- `e8` and `e8 ib`. At the end of the input only the first one has all its bytes. -/
def overlapTable : OpcodeTable :=
  ⟨[⟨"short".toList, ⟨{ OpcodeFields.initial with mainByte := 0xE8 }, by decide⟩⟩,
    ⟨"long".toList, ⟨{ OpcodeFields.initial with
      mainByte := 0xE8, immediate := .fixed 1 }, by decide⟩⟩]⟩

theorem sweep_overlap : ∃ d, overlapTable.sweep [0xE8] .ia32 = [(0, .ok d)] := by
  obtain ⟨d, hd, hl⟩ : ∃ d, overlapTable.decode [0xE8] .ia32 = .ok d ∧ d.length = 1 :=
    ⟨_, rfl, rfl⟩
  exact ⟨d, by simp [sweep, sweepFrom, hd, answerSize, hl]⟩

theorem sweep_append_overlap :
    (∀ item ∈ overlapTable.sweep [0xE8] .ia32, ∃ d, item.2 = .ok d) ∧
      overlapTable.returning [0xE8] [0x0A] .ia32 ≠ [] ∧
      ∃ names rest, overlapTable.sweep [0xE8, 0x0A] .ia32 =
        (0, .error (.ambiguous names)) :: rest := by
  obtain ⟨d, hsweep⟩ := sweep_overlap
  have hok : ∀ item ∈ overlapTable.sweep [0xE8] .ia32, ∃ d, item.2 = .ok d := by simp [hsweep]
  have hreturns : overlapTable.returning [0xE8] [0x0A] .ia32 ≠ [] := by decide
  exact ⟨hok, hreturns, (sweep_append [0x0A] hok).2.2 [] _ [] hsweep (by simp) hreturns⟩

/-- A clean sweep whose only instruction is gone once a byte is appended. -/
theorem not_sweep_isPrefix_append :
    (∀ item ∈ overlapTable.sweep [0xE8] .ia32, ∃ d, item.2 = .ok d) ∧
      ¬ overlapTable.sweep [0xE8] .ia32 <+: overlapTable.sweep ([0xE8] ++ [0x0A]) .ia32 := by
  obtain ⟨d, hsweep⟩ := sweep_overlap
  have hlong : overlapTable.decode [0xE8, 0x0A] .ia32 =
      .error (.ambiguous ["short".toList, "long".toList]) := rfl
  refine ⟨by simp [hsweep], ?_⟩
  rw [hsweep, List.singleton_append, sweep, sweepFrom, hlong]
  simp

end OpcodeTable
end X86Encoding
