import X86Encoding.Proofs.Prefix.Writing

set_option autoImplicit false

namespace X86Encoding

namespace PrefixState

variable {bytes rest : List UInt8} {mode : Mode} {legacy : PrefixList} {s : PrefixState}
  {n k : Nat}

theorem Reads.withLegacy (h : Reads mode legacy rest s k) (l : PrefixList)
    (hl : s.vector? = none ∨ ∀ p ∈ l.toList, p ∉ displaced) :
    Reads mode l rest { s with legacy := l } k := by
  cases h with
  | plain hrex hlead => exact .plain hrex hlead
  | rex hmode hb hc hc' => exact .rex hmode hb hc hc'
  | vector hs _ hlen hv => exact .vector hs (hl.resolve_left (Option.some_ne_none _)) hlen hv

/-- A run with a prefix that a vector prefix takes the place of is refused before the bytes
behind the lead byte are counted. -/
theorem Reads.readAfterLegacy_displaced (h : Reads mode legacy rest s k) (hv : s.vector? ≠ none)
    {l : PrefixList} (hl : ∃ p ∈ l.toList, p ∈ displaced) (available offset : Nat) :
    readAfterLegacy available mode l offset rest =
      .error (.invalidPrefix offset .vectorAfterLegacy) := by
  have hany : l.toList.any displaced.contains = true := by simpa using hl
  cases h with
  | plain => exact absurd rfl hv
  | rex => exact absurd rfl hv
  | @vector lead b rest v hs =>
    simp [readAfterLegacy, readAfterLead, hs, hany]

theorem read_map_byte_append (ps : List LegacyPrefix) (bytes : List UInt8) (mode : Mode) :
    read (ps.map LegacyPrefix.byte ++ bytes) mode =
      match PrefixList.ofList (ps ++ LegacyPrefix.leading bytes) with
      | .error _ => .error (.tooLong 8)
      | .ok l =>
        readAfterLegacy (ps.length + bytes.length) mode l
          (ps.length + (LegacyPrefix.leading bytes).length)
          (bytes.drop (LegacyPrefix.leading bytes).length) := by
  have hdrop : (ps.map LegacyPrefix.byte ++ bytes).drop
      (ps.length + (LegacyPrefix.leading bytes).length) =
        bytes.drop (LegacyPrefix.leading bytes).length := by
    rw [← List.drop_drop, List.drop_left' (List.length_map _)]
  simp only [read, LegacyPrefix.leading_map_byte_append, List.length_append, List.length_map, hdrop]
  rfl

/-- Legacy prefixes in front of what can be read: too many of them, one that a vector prefix
takes the place of, or the same state with a longer run. -/
theorem read_prepend (ps : List LegacyPrefix) (h : read bytes mode = .ok (s, n)) :
    (7 < ps.length + s.legacy.toList.length →
      read (ps.map LegacyPrefix.byte ++ bytes) mode = .error (.tooLong 8)) ∧
    (ps.length + s.legacy.toList.length ≤ 7 → s.vector? ≠ none →
      (∃ p ∈ ps, p.byte ∈ ([0xF0, 0xF2, 0xF3, 0x66] : List UInt8)) →
      read (ps.map LegacyPrefix.byte ++ bytes) mode =
        .error (.invalidPrefix (ps.length + s.legacy.toList.length) .vectorAfterLegacy)) ∧
    (ps.length + s.legacy.toList.length ≤ 7 →
      (s.vector? = none ∨ ∀ p ∈ ps, p.byte ∉ ([0xF0, 0xF2, 0xF3, 0x66] : List UInt8)) →
      ∃ l : PrefixList, l.toList = ps ++ s.legacy.toList ∧
        read (ps.map LegacyPrefix.byte ++ bytes) mode =
          .ok ({ s with legacy := l }, ps.length + n)) := by
  obtain ⟨hrun, k, rfl, hreads⟩ := reads_of_read h
  have hread := read_map_byte_append ps bytes mode
  rw [← hrun] at hread
  have hlen : (ps ++ s.legacy.toList).length = ps.length + s.legacy.toList.length :=
    List.length_append
  refine ⟨fun hmany => ?_, fun hfits hv hp => ?_, fun hfits hfree => ?_⟩
  · rw [hread, PrefixList.ofList_of_lt (hlen ▸ hmany)]
  · obtain ⟨l, hl, hlist⟩ := PrefixList.ofList_of_le (hlen ▸ hfits)
    obtain ⟨p, hmem, hbyte⟩ := hp
    have hdisplaced : ∃ p ∈ l.toList, p ∈ displaced :=
      ⟨p, hlist ▸ List.mem_append_left _ hmem, (mem_displaced_iff p).2 hbyte⟩
    simp only [hread, hl, hreads.readAfterLegacy_displaced hv hdisplaced]
  · obtain ⟨l, hl, hlist⟩ := PrefixList.ofList_of_le (hlen ▸ hfits)
    -- what was read stands behind none of the displaced prefixes
    have hkept : s.vector? = none ∨ ∀ p ∈ l.toList, p ∉ displaced := by
      cases hv : s.vector? with
      | none => exact .inl rfl
      | some v =>
        have hps := hfree.resolve_left (by rw [hv]; exact Option.some_ne_none v)
        refine .inr fun p hp => ?_
        rcases List.mem_append.1 (hlist ▸ hp) with hp | hp
        · exact fun hmem => hps p hp ((mem_displaced_iff p).1 hmem)
        · exact (hreads.wellFormed.vector v hv).2.2 p hp
    have hlonger := (hreads.withLegacy l hkept).readAfterLegacy_eq (ps.length + bytes.length)
      (ps.length + s.legacy.toList.length)
    exact ⟨l, hlist, by simp only [hread, hl, hlonger, Nat.add_assoc]⟩

theorem read_prepend_vex :
    ∃ s, read [0x67, 0xC5, 0xF8, 0x10] .x64 = .ok (s, 3) ∧ s.vector? ≠ none ∧
      (∃ l : PrefixList, l.toList = [.gs, .addressSize] ∧
        read [0x65, 0x67, 0xC5, 0xF8, 0x10] .x64 = .ok ({ s with legacy := l }, 4)) ∧
      read [0x66, 0x65, 0x67, 0xC5, 0xF8, 0x10] .x64 =
        .error (.invalidPrefix 3 .vectorAfterLegacy) ∧
      read [0x65, 0x65, 0x65, 0x65, 0x65, 0x65, 0x65, 0x67, 0xC5, 0xF8, 0x10] .x64 =
        .error (.tooLong 8) := by
  obtain ⟨s, hs, hl, hv⟩ : ∃ s, read [0x67, 0xC5, 0xF8, 0x10] .x64 = .ok (s, 3) ∧
      s.legacy.toList = [.addressSize] ∧ s.vector? ≠ none := ⟨_, rfl, by decide, by decide⟩
  have hsegment := (read_prepend [.gs] hs).2.2
  have hsize := (read_prepend [.operandSize, .gs] hs).2.1
  have hmany := (read_prepend (List.replicate 7 .gs) hs).1
  rw [hl] at hsegment hsize hmany
  exact ⟨s, hs, hv, hsegment (by decide) (.inr (by decide)), hsize (by decide) hv (by decide),
    hmany (by decide)⟩

end PrefixState
end X86Encoding
