import X86Encoding.Proofs.Table.Extension

/-!
Tables that grow. An entry that is put in can match with a length of its own, and then there is
no single answer any more. It cannot hide an entry that matched before, and one that could not
be read counts for nothing next to it. So a length that was decoded stays the only one.
-/

set_option autoImplicit false

namespace X86Encoding.OpcodeTable

open DecodePoint

variable {t t' : OpcodeTable} {p : DecodePoint} {d : Instruction}

theorem matching_sublist (h : t.entries.Sublist t'.entries) (p : DecodePoint) :
    (t.matching p).Sublist (t'.matching p) :=
  h.filter _

theorem head_matching_of_isPrefix (h : t.entries <+: t'.entries) {first : TableEntry}
    (hh : (t.matching p).head? = some first) : (t'.matching p).head? = some first := by
  obtain ⟨more, he⟩ := h
  obtain ⟨rest, hm⟩ := List.head?_eq_some_iff.1 hh
  have hm' : t'.matching p = t.matching p ++ more.filter fun e => p.Matches e := by
    rw [matching, ← he, List.filter_append, matching]
  rw [hm', hm, List.cons_append, List.head?_cons]

/-- Whichever entry comes first now has the length that there was, as long as all agree on it. -/
theorem verdict_of_agree (h : t.entries.Sublist t'.entries)
    (hd : verdict p (t.trials p) = .ok d)
    (hagree : ∀ e ∈ t'.matching p, p.lengthOf e.opcode = d.length) :
    ∃ d', verdict p (t'.trials p) = .ok d' ∧ d'.length = d.length ∧
      (t.entries <+: t'.entries → d' = d) := by
  have ho := t.outcome_verdict p
  rw [hd] at ho
  cases ho with
  | @decoded first hh hall hmax hlen =>
    have hmem := (matching_sublist h p).subset (List.mem_of_mem_head? hh)
    obtain ⟨first', rest, hm⟩ := List.exists_cons_of_ne_nil (List.ne_nil_of_mem hmem)
    have hhead : (t'.matching p).head? = some first' := by rw [hm, List.head?_cons]
    have hl : p.lengthOf first'.opcode = p.lengthOf first.opcode :=
      hagree first' (hm ▸ List.mem_cons_self)
    refine ⟨p.instruction first', verdict_of_outcome (.decoded hhead ?_ (by omega) (by omega)),
      hl, fun hend => ?_⟩
    · intro e he
      exact (hagree e he).trans hl.symm
    · have hsame := head_matching_of_isPrefix hend hh
      rw [hhead] at hsame
      rw [Option.some.inj hsame]

theorem verdict_of_differ (h : t.entries.Sublist t'.entries)
    (hd : verdict p (t.trials p) = .ok d)
    (hdiffer : ∃ e ∈ t'.matching p, p.lengthOf e.opcode ≠ d.length) :
    verdict p (t'.trials p) = .error (.ambiguous ((t'.matching p).map (·.mnemonic))) := by
  obtain ⟨e, he, hne⟩ := hdiffer
  have ho := t.outcome_verdict p
  rw [hd] at ho
  cases ho with
  | decoded hh =>
    have hmem := (matching_sublist h p).subset (List.mem_of_mem_head? hh)
    exact verdict_of_outcome (.ambiguous he hmem hne)

theorem verdict_of_ambiguous (h : t.entries.Sublist t'.entries) {names : List Text}
    (hd : verdict p (t.trials p) = .error (.ambiguous names)) :
    ∃ names', verdict p (t'.trials p) = .error (.ambiguous names') ∧ names.Sublist names' := by
  have hsub := matching_sublist h p
  have ho := t.outcome_verdict p
  rw [hd] at ho
  cases ho with
  | ambiguous he he' hne =>
    exact ⟨_, verdict_of_outcome (.ambiguous (hsub.subset he) (hsub.subset he') hne), hsub.map _⟩

/-- A table that grows decodes what it decoded with the same length, and to the same instruction
if it grew at the end; or else an entry of another length matches now, and the answer names all
that match. What was ambiguous or had a wrong prefix stays so. -/
theorem decode_grown (h : t.entries.Sublist t'.entries) (bytes : List UInt8) (mode : Mode) :
    (∀ d, t.decode bytes mode = .ok d →
      (∃ d', t'.decode bytes mode = .ok d' ∧ d'.length = d.length ∧
        (t.entries <+: t'.entries → d' = d)) ∨
      ∃ p, locate bytes mode = .ok p ∧ (∃ e ∈ t'.matching p, p.lengthOf e.opcode ≠ d.length) ∧
        t'.decode bytes mode = .error (.ambiguous ((t'.matching p).map (·.mnemonic)))) ∧
    (∀ names, t.decode bytes mode = .error (.ambiguous names) →
      ∃ names', t'.decode bytes mode = .error (.ambiguous names') ∧ names.Sublist names') ∧
    (∀ offset fault, t.decode bytes mode = .error (.invalidPrefix offset fault) →
      t'.decode bytes mode = .error (.invalidPrefix offset fault)) := by
  rw [decode_eq_locate, decode_eq_locate]
  cases locate bytes mode with
  | error e =>
    -- the prefixes are read before the table is looked at
    exact ⟨fun d hd => (nomatch hd), fun names hd => ⟨names, hd, .refl _⟩,
      fun offset fault hd => hd⟩
  | ok p =>
    refine ⟨fun d hd => ?_, fun names hd => verdict_of_ambiguous h hd, fun offset fault hd => ?_⟩
    · by_cases hagree : ∀ e ∈ t'.matching p, p.lengthOf e.opcode = d.length
      · exact .inl (verdict_of_agree h hd hagree)
      · have hdiffer : ∃ e ∈ t'.matching p, p.lengthOf e.opcode ≠ d.length := by
          simpa using hagree
        exact .inr ⟨p, rfl, hdiffer, verdict_of_differ h hd hdiffer⟩
    · have ho := t.outcome_verdict p
      simp only [hd] at ho
      cases ho

/-- `d5` without an immediate stands in front of the other entries. -/
def adjustTableGrown : OpcodeTable :=
  ⟨⟨"bare".toList, ⟨{ OpcodeFields.initial with mainByte := 0xD5 }, by decide⟩⟩ ::
    adjustTable.entries⟩

theorem decode_grown_adjust :
    let alone : OpcodeTable := ⟨adjustTable.entries.take 1⟩
    alone.entries.Sublist adjustTable.entries ∧
      adjustTable.entries.Sublist adjustTableGrown.entries ∧
      ∃ d, alone.decode [0xD5, 0x0A] .ia32 = .ok d ∧ d.length = 2 ∧
        adjustTable.decode [0xD5, 0x0A] .ia32 = .ok d ∧
        ∃ p, locate [0xD5, 0x0A] .ia32 = .ok p ∧
          (∃ e ∈ adjustTableGrown.matching p, p.lengthOf e.opcode ≠ 2) ∧
          adjustTableGrown.decode [0xD5, 0x0A] .ia32 =
            .error (.ambiguous ["bare".toList, "aad".toList, "aadx".toList]) := by
  intro alone
  have halone : alone.entries.Sublist adjustTable.entries := List.take_sublist 1 _
  have hgrown : adjustTable.entries.Sublist adjustTableGrown.entries := List.sublist_cons_self ..
  obtain ⟨d, hd, hl⟩ : ∃ d, alone.decode [0xD5, 0x0A] .ia32 = .ok d ∧ d.length = 2 :=
    ⟨_, rfl, by decide⟩
  obtain ⟨d', hok⟩ : ∃ d', adjustTable.decode [0xD5, 0x0A] .ia32 = .ok d' := ⟨_, rfl⟩
  have hambiguous : adjustTableGrown.decode [0xD5, 0x0A] .ia32 =
      .error (.ambiguous ["bare".toList, "aad".toList, "aadx".toList]) := rfl
  have hsame : adjustTable.decode [0xD5, 0x0A] .ia32 = .ok d := by
    rcases (decode_grown halone [0xD5, 0x0A] .ia32).1 d hd with ⟨e, he, -, hend⟩ | ⟨_, _, _, he⟩
    · rw [he, hend (List.take_prefix 1 _)]
    · rw [hok] at he
      cases he
  rcases (decode_grown hgrown [0xD5, 0x0A] .ia32).1 d hsame with ⟨e, he, -⟩ | ⟨p, hp, hdiffer, -⟩
  · rw [hambiguous] at he
    cases he
  · rw [hl] at hdiffer
    exact ⟨halone, hgrown, d, hd, hl, hsame, p, hp, hdiffer, hambiguous⟩

end X86Encoding.OpcodeTable
