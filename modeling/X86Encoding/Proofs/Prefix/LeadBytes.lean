import X86Encoding.Proofs.Prefix.Writing

/-!
The lead bytes of VEX and EVEX in long mode, where they are no opcodes. Behind legacy prefixes
they start a vector prefix, or nothing can be read. Behind REX no vector prefix is looked for,
and there the byte is taken for an opcode.
-/

set_option autoImplicit false

namespace X86Encoding

namespace VectorLead

/-- In long mode all lead bytes but the one of XOP start a prefix, whatever comes next. -/
theorem exists_starts_long {b : UInt8} (h : b ∈ ([0xC4, 0xC5, 0x62] : List UInt8)) :
    ∃ lead, ofByte? b = some lead ∧ ∀ next, lead.starts .x64 next = true := by
  simp only [List.mem_cons, List.not_mem_nil, or_false] at h
  rcases h with rfl | rfl | rfl
  · exact ⟨.vex3, rfl, fun _ => rfl⟩
  · exact ⟨.vex2, rfl, fun _ => rfl⟩
  · exact ⟨.evex, rfl, fun _ => rfl⟩

end VectorLead

namespace PrefixState

variable {bytes rest : List UInt8} {mode : Mode} {s : PrefixState} {n k : Nat} {b : UInt8}

theorem WellFormed.map_ne_primary (h : s.WellFormed) (hv : s.vector? ≠ none) :
    s.map ≠ .primary := by
  obtain ⟨v, hv⟩ := Option.ne_none_iff_exists'.1 hv
  obtain ⟨hmap, ⟨d, hd⟩, -⟩ := h.vector v hv
  have hprimary := d.map_ne_primary
  rw [Checked.fields_of_make hd] at hprimary
  rwa [hmap]

theorem bytes_eq_of_read (h : read bytes mode = .ok (s, n)) :
    bytes = s.legacy.toList.map LegacyPrefix.byte ++ bytes.drop s.legacy.toList.length := by
  obtain ⟨hrun, -⟩ := reads_of_read h
  rw [hrun, ← LegacyPrefix.take_leading, List.take_append_drop]

/-- A lead byte that is left as the main byte stands right behind REX. Anywhere else it would
have started a prefix. -/
theorem Reads.rex_of_lead (h : Reads .x64 s.legacy rest s k) (hmap : s.map = .primary)
    (hb : rest[k]? = some b) (hlead : b ∈ ([0xC4, 0xC5, 0x62] : List UInt8)) :
    ∃ (p : Rex) (tail : List UInt8), rest = p.toByte :: b :: tail ∧
      s = ⟨.x64, s.legacy, some (.rex p), .primary⟩ ∧ k = 1 := by
  have hw := h.wellFormed
  obtain ⟨lead, hof, hstarts⟩ := VectorLead.exists_starts_long hlead
  generalize hl : s.legacy = legacy at h
  cases h with
  | @plain c rest _ hopcode =>
    have hsize := OpcodeMap.leading_size_of_primary hmap
    rw [hsize, List.getElem?_cons_zero, Option.some.injEq] at hb
    obtain ⟨next, -, -, hnot⟩ := hopcode lead (hb ▸ hof)
    rw [hstarts] at hnot
    cases hnot
  | @rex r c tail _ hr =>
    have hsize := OpcodeMap.leading_size_of_primary hmap
    rw [hsize, List.getElem?_cons_succ, List.getElem?_cons_zero, Option.some.injEq] at hb
    subst hb
    refine ⟨.ofByte r, tail, by rw [Rex.toByte_ofByte hr], ?_, by rw [hsize]⟩
    exact congrArg _ hmap
  | vector => exact absurd hmap (hw.map_ne_primary (Option.some_ne_none _))

/-- In long mode, a lead byte of VEX or EVEX is the main byte of the primary map in one place
only: behind REX. -/
theorem read_lead_iff (hlead : b ∈ ([0xC4, 0xC5, 0x62] : List UInt8)) :
    (read bytes .x64 = .ok (s, n) ∧ s.map = .primary ∧ bytes[n]? = some b) ↔
      ∃ (p : Rex) (rest : List UInt8),
        bytes = s.legacy.toList.map LegacyPrefix.byte ++ p.toByte :: b :: rest ∧
        s = ⟨.x64, s.legacy, some (.rex p), .primary⟩ ∧ n = s.legacy.toList.length + 1 := by
  constructor
  · rintro ⟨hread, hmap, hb⟩
    obtain ⟨-, k, rfl, hreads⟩ := reads_of_read hread
    rw [← List.getElem?_drop] at hb
    obtain ⟨p, rest, hdrop, hs, rfl⟩ := hreads.rex_of_lead hmap hb hlead
    have hbytes := bytes_eq_of_read hread
    rw [hdrop] at hbytes
    exact ⟨p, rest, hbytes, hs, rfl⟩
  · rintro ⟨p, rest, rfl, hs, rfl⟩
    obtain ⟨lead, hof, -⟩ := VectorLead.exists_starts_long hlead
    have hne := VectorLead.ne_escape_of_ofByte? hof
    obtain rfl := VectorLead.byte_of_ofByte? hof
    have hreads : Reads .x64 s.legacy (p.toByte :: lead.byte :: rest) ⟨.x64, s.legacy, _, _⟩ _ :=
      .rex rfl p.isByte_toByte lead.legacy_ofByte?_byte lead.isByte_byte
    rw [OpcodeMap.leading_of_ne rest hne, Rex.ofByte_toByte, ← hs] at hreads
    refine ⟨read_of_reads p.legacy_ofByte?_toByte hreads, congrArg PrefixState.map hs, ?_⟩
    rw [List.getElem?_append_right (by simp)]
    simp

theorem read_lead_iff_rexW :
    (0xC4 : UInt8) ∈ ([0xC4, 0xC5, 0x62] : List UInt8) ∧
      ∃ s, read [0x65, 0x48, 0xC4, 0xE2] .x64 = .ok (s, 2) ∧ s.map = .primary ∧
        s.rex? = some ⟨true, false, false, false⟩ := by
  have hfits : [LegacyPrefix.gs].length ≤ PrefixList.capacity := by decide
  obtain ⟨l, -, hl⟩ := PrefixList.ofList_of_le hfits
  let s : PrefixState := ⟨.x64, l, some (.rex ⟨true, false, false, false⟩), .primary⟩
  have hbytes : [0x65, 0x48, 0xC4, 0xE2] = s.legacy.toList.map LegacyPrefix.byte ++
      (Rex.toByte ⟨true, false, false, false⟩ :: 0xC4 :: [0xE2]) := by rw [hl]; rfl
  have hlead : (0xC4 : UInt8) ∈ ([0xC4, 0xC5, 0x62] : List UInt8) := by decide
  have hplace : 2 = s.legacy.toList.length + 1 := by rw [hl]; rfl
  obtain ⟨hread, hmap, -⟩ := (read_lead_iff hlead).2 ⟨_, _, hbytes, rfl, hplace⟩
  exact ⟨hlead, s, hread, hmap, rfl⟩

/-- A lead byte that is taken for an opcode in long mode. -/
theorem not_lead_ne_mainByte :
    ¬ ∀ (bytes : List UInt8) (s : PrefixState) (n : Nat) (b : UInt8),
      read bytes .x64 = .ok (s, n) → s.map = .primary → bytes[n]? = some b →
        b ∉ ([0xC4, 0xC5, 0x62] : List UInt8) := by
  intro h
  exact h [0x48, 0xC4] ⟨.x64, .empty, some (.rex (.ofByte 0x48)), .primary⟩ 1 0xC4 rfl rfl rfl
    (by decide)

end PrefixState
end X86Encoding
