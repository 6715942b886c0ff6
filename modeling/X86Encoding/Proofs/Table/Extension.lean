import Mathlib.Data.List.Basic
import X86Encoding.Proofs.Table.Meaning

/-!
Decoding a longer input. What an entry has read stays as it is, and an entry that lacked bytes
can only come back longer than all there was. So an answer that is no demand for bytes stays,
or gives way to an ambiguity; and an instruction that is cut short asks for no more bytes than
it has.
-/

set_option autoImplicit false

namespace X86Encoding

namespace DecodePoint

variable {p : DecodePoint} {d : OpcodeDescriptor} {e : TableEntry} (more : List UInt8)

@[simp] theorem immediateBytes_extend :
    (p.extend more).immediateBytes d = p.immediateBytes d := rfl

section Stable

variable (hm : d.hasModRM = true → p.opcodeEnd < p.bytes.length)
include hm

theorem modRMOf_extend : (p.extend more).modRMOf d = p.modRMOf d := by
  unfold modRMOf
  split
  · rename_i h
    rw [extend_bytes, extend_opcodeEnd, List.getElem?_append_left (hm h)]
  · rfl

theorem wantsSib_extend : (p.extend more).wantsSib d = p.wantsSib d := by
  simp [wantsSib, modRMOf_extend more hm]

variable (hs : p.wantsSib d = true → p.opcodeEnd + 1 < p.bytes.length)
include hs

theorem sibOf_extend : (p.extend more).sibOf d = p.sibOf d := by
  unfold sibOf
  rw [wantsSib_extend more hm]
  split
  · rename_i h
    rw [extend_bytes, extend_opcodeEnd, List.getElem?_append_left (hs h)]
  · rfl

theorem immediateStart_extend : (p.extend more).immediateStart d = p.immediateStart d := by
  simp [immediateStart, displacementOf, modRMOf_extend more hm, wantsSib_extend more hm,
    sibOf_extend more hm hs]

end Stable

theorem IsReadable.extend (h : p.IsReadable d) : (p.extend more).IsReadable d where
  modRM hm := by
    have := h.modRM hm
    grind
  sib hs := by
    rw [wantsSib_extend more h.modRM] at hs
    have := h.sib hs
    grind
  imm8 hi := by
    have := h.imm8 hi
    rw [immediateStart_extend more h.modRM h.sib]
    grind

theorem lengthOf_extend (h : p.IsReadable d) : (p.extend more).lengthOf d = p.lengthOf d := by
  simp [lengthOf, immediateStart_extend more h.modRM h.sib]

theorem imm8Of_extend (h : p.IsReadable d) : (p.extend more).imm8Of d = p.imm8Of d := by
  unfold imm8Of
  split
  · rename_i hi
    rw [immediateStart_extend more h.modRM h.sib, extend_bytes,
      List.getElem?_append_left (h.imm8 hi)]
  · rfl

theorem matches_extend_iff (h : p.IsReadable e.opcode) :
    (p.extend more).Matches e ↔ p.Matches e := by
  simp [Matches, h, h.extend more, modRMOf_extend more h.modRM, imm8Of_extend more h]

theorem instruction_extend (h : p.IsReadable e.opcode) :
    (p.extend more).instruction e = p.instruction e := by
  simp [instruction, modRMOf_extend more h.modRM, imm8Of_extend more h, lengthOf_extend more h]

/-- An entry that lacked bytes is at least as long as it said it would be. -/
theorem missingEnd_le_lengthOf (h : ¬ p.IsReadable d) :
    p.missingEnd ≤ (p.extend more).lengthOf d := by
  rcases missing_cases h with ⟨hd, _, he⟩ | ⟨hd, hm, hs, _, he⟩ | ⟨hm, hs, hi, _, he⟩
  · rw [he, lengthOf, immediateStart, hd, if_pos rfl, extend_opcodeEnd]
    omega
  · rw [he, lengthOf, immediateStart, hd, wantsSib_extend more (fun _ => hm), hs, if_pos rfl,
      extend_opcodeEnd]
    omega
  · apply Nat.le_of_eq
    rw [he, lengthOf, immediateStart_extend more hm hs, immediateBytes_of_imm8 hi]

/-- An entry that lacked bytes is longer than all there was. -/
theorem isReadable_of_lengthOf_le (h : (p.extend more).lengthOf d ≤ p.bytes.length) :
    p.IsReadable d := by
  by_contra hr
  have hlt := length_lt_missingEnd hr
  have hle := missingEnd_le_lengthOf more hr
  omega

end DecodePoint

namespace OpcodeTable

open DecodePoint

variable {t : OpcodeTable} {p : DecodePoint} {e : TableEntry} {d : Instruction}
  (more : List UInt8)

theorem matching_sublist_extend : (t.matching p).Sublist (t.matching (p.extend more)) := by
  unfold matching
  apply List.monotone_filter_right
  intro e he
  simp only [decide_eq_true_eq] at he ⊢
  exact (matches_extend_iff more he.1).2 he

theorem mem_matching_extend (h : e ∈ t.matching p) : e ∈ t.matching (p.extend more) :=
  (matching_sublist_extend more).subset h

theorem matching_extend (h : ∀ e ∈ t.matching (p.extend more), p.IsReadable e.opcode) :
    t.matching (p.extend more) = t.matching p := by
  unfold matching
  apply List.filter_congr
  intro e he
  rw [decide_eq_decide]
  constructor
  · intro hm
    exact (matches_extend_iff more (h e (mem_matching.2 ⟨he, hm⟩))).1 hm
  · intro hm
    exact (matches_extend_iff more hm.1).2 hm

theorem matching_extend_of_length_le {n : Nat} (hn : n ≤ p.bytes.length)
    (hall : ∀ e ∈ t.matching (p.extend more), (p.extend more).lengthOf e.opcode = n) :
    t.matching (p.extend more) = t.matching p := by
  apply matching_extend
  intro e he
  apply isReadable_of_lengthOf_le more
  rw [hall e he]
  exact hn

theorem verdict_extend_ok (hm : t.matching (p.extend more) = t.matching p)
    (h : verdict p (t.trials p) = .ok d) :
    verdict (p.extend more) (t.trials (p.extend more)) = .ok d := by
  have ho := t.outcome_verdict p
  rw [h] at ho
  cases ho with
  | @decoded first hh hall hmax hlen =>
    have hl : ∀ e ∈ t.matching p, (p.extend more).lengthOf e.opcode = p.lengthOf e.opcode :=
      fun e he => lengthOf_extend more (mem_matching.1 he).2.1
    have hmem := List.mem_of_mem_head? hh
    have hfirst := hl first hmem
    rw [← instruction_extend more (mem_matching.1 hmem).2.1]
    refine verdict_of_outcome (.decoded (hm ▸ hh) ?_ (by omega) ?_)
    · intro e he
      rw [hm] at he
      rw [hl e he, hall e he, hfirst]
    · rw [hfirst, extend_bytes, List.length_append]
      omega

def Refines : Except DecodeError Instruction → Except DecodeError Instruction → Prop
  | .ok d, r => r = .ok d ∨ ∃ names, r = .error (.ambiguous names)
  | .error (.ambiguous names), r =>
    ∃ names', r = .error (.ambiguous names') ∧ names.Sublist names'
  | .error (.tooLong n), r => r = .error (.tooLong n) ∨ ∃ names, r = .error (.ambiguous names)
  | .error (.truncated _ _), _ => True
  | .error e, r => r = .error e

/-- All the entries that match have one length, or the answer is an ambiguity. -/
theorem agree_or_ambiguous (h : e ∈ t.matching p) :
    (∀ e' ∈ t.matching p, p.lengthOf e'.opcode = p.lengthOf e.opcode) ∨
      ∃ names, verdict p (t.trials p) = .error (.ambiguous names) := by
  by_cases ha : ∀ e' ∈ t.matching p, p.lengthOf e'.opcode = p.lengthOf e.opcode
  · exact .inl ha
  · simp only [Classical.not_forall] at ha
    obtain ⟨e', he', hne⟩ := ha
    exact .inr ⟨_, verdict_of_outcome (.ambiguous he' h hne)⟩

theorem verdict_refines (hp : p.opcodeEnd ≤ p.bytes.length) :
    Refines (verdict p (t.trials p)) (verdict (p.extend more) (t.trials (p.extend more))) := by
  have ho := t.outcome_verdict p
  generalize verdict p (t.trials p) = r at ho
  cases ho with
  | cutShort => trivial
  | unread => trivial
  | @decoded first hh hall hmax hlen =>
    have hmem := List.mem_of_mem_head? hh
    have hl := lengthOf_extend more (mem_matching.1 hmem).2.1
    rcases agree_or_ambiguous (mem_matching_extend more hmem) with ha | ha
    · have heq := matching_extend_of_length_le more (hl ▸ hlen) ha
      exact .inl (verdict_extend_ok more heq (verdict_of_outcome (.decoded hh hall hmax hlen)))
    · exact .inr ha
  | @tooLong first hh hall hmax =>
    have hmem := List.mem_of_mem_head? hh
    have hl := lengthOf_extend more (mem_matching.1 hmem).2.1
    rcases agree_or_ambiguous (mem_matching_extend more hmem) with ha | ha
    · obtain ⟨e, es, he⟩ := List.exists_cons_of_ne_nil
        (List.ne_nil_of_mem (mem_matching_extend more hmem))
      have hl' := ha e (he ▸ List.mem_cons_self)
      refine .inl (verdict_of_outcome ?_)
      rw [← hl, ← hl']
      exact .tooLong (by rw [he, List.head?_cons]) (fun e' he' => (ha e' he').trans hl'.symm)
        (by omega)
    · exact .inr ha
  | ambiguous he he' hne =>
    have hr := (mem_matching.1 he).2.1
    have hr' := (mem_matching.1 he').2.1
    refine ⟨_, verdict_of_outcome (.ambiguous (mem_matching_extend more he)
      (mem_matching_extend more he') ?_), (matching_sublist_extend more).map _⟩
    rwa [lengthOf_extend more hr, lengthOf_extend more hr']
  | noMatch hm hu =>
    -- every candidate was read, so none of them can match later
    have hall : ∀ e ∈ t.entries, p.IsCandidate e → p.IsReadable e.opcode := by
      intro e he hc
      by_contra hr
      have := mem_unreadable.2 ⟨he, hc, hr⟩
      rw [hu] at this
      exact List.not_mem_nil this
    have heq : t.matching (p.extend more) = t.matching p := by
      apply matching_extend
      intro e he
      have he := mem_matching.1 he
      exact hall e he.1 he.2.isCandidate
    have hu' : t.unreadable (p.extend more) = [] := by
      rw [List.eq_nil_iff_forall_not_mem]
      intro e he
      obtain ⟨he, hc, hr⟩ := mem_unreadable.1 he
      exact hr ((hall e he hc).extend more)
    have := verdict_of_outcome (.noMatch (heq.trans hm) hu')
    rwa [extend_bytes, extend_opcodeEnd, List.take_append_of_le_length hp] at this

theorem decode_refines (t : OpcodeTable) (bytes more : List UInt8) (mode : Mode) :
    Refines (t.decode bytes mode) (t.decode (bytes ++ more) mode) := by
  rw [decode_eq_locate, decode_eq_locate]
  have h := locate_continues bytes more mode
  generalize locate bytes mode = r, locate (bytes ++ more) mode = r' at h
  cases h with
  | tooLong => exact .inl rfl
  | invalidPrefix => rfl
  | truncated => trivial
  | found hb _ hl =>
    subst hb
    exact verdict_refines more (Nat.le_trans (opcodeEnd_le_lookahead _) hl)

/-- More input never leads to another instruction, nor to an error that it could have told. -/
theorem decode_append (t : OpcodeTable) (bytes more : List UInt8) (mode : Mode) :
    (∀ seen, t.decode bytes mode = .error (.noMatch seen) →
      t.decode (bytes ++ more) mode = .error (.noMatch seen)) ∧
    (∀ offset fault, t.decode bytes mode = .error (.invalidPrefix offset fault) →
      t.decode (bytes ++ more) mode = .error (.invalidPrefix offset fault)) ∧
    (∀ d, t.decode bytes mode = .ok d →
      t.decode (bytes ++ more) mode = .ok d ∨
        ∃ names, t.decode (bytes ++ more) mode = .error (.ambiguous names)) ∧
    (∀ names, t.decode bytes mode = .error (.ambiguous names) →
      ∃ names', t.decode (bytes ++ more) mode = .error (.ambiguous names') ∧
        names.Sublist names') ∧
    (∀ n, t.decode bytes mode = .error (.tooLong n) →
      t.decode (bytes ++ more) mode = .error (.tooLong n) ∨
        ∃ names, t.decode (bytes ++ more) mode = .error (.ambiguous names)) := by
  have h := t.decode_refines bytes more mode
  refine ⟨?_, ?_, ?_, ?_, ?_⟩
  · intro seen hd
    rw [hd] at h
    exact h
  · intro offset fault hd
    rw [hd] at h
    exact h
  · intro d hd
    rw [hd] at h
    exact h
  · intro names hd
    rw [hd] at h
    exact h
  · intro n hd
    rw [hd] at h
    exact h

theorem verdict_of_extend {d : Instruction}
    (h : verdict (p.extend more) (t.trials (p.extend more)) = .ok d) :
    (p.bytes.length < d.length → ∃ needed,
      verdict p (t.trials p) = .error (.truncated needed p.bytes.length) ∧
        p.bytes.length < needed ∧ needed ≤ d.length) ∧
    (d.length ≤ p.bytes.length → verdict p (t.trials p) = .ok d) := by
  have ho := t.outcome_verdict (p.extend more)
  rw [h] at ho
  cases ho with
  | @decoded first hh hall hmax hlen =>
    have hmem := List.mem_of_mem_head? hh
    have hsame : ∀ e ∈ t.matching p,
        p.lengthOf e.opcode = (p.extend more).lengthOf first.opcode := by
      intro e he
      rw [← lengthOf_extend more (mem_matching.1 he).2.1]
      exact hall e (mem_matching_extend more he)
    change (p.bytes.length < (p.extend more).lengthOf first.opcode → ∃ needed,
        _ ∧ _ ∧ needed ≤ (p.extend more).lengthOf first.opcode) ∧
      ((p.extend more).lengthOf first.opcode ≤ p.bytes.length → _)
    refine ⟨fun hlt => ?_, fun hle => ?_⟩
    -- cut short, either the first entry could not be read or those that match are cut short too
    · cases hm : t.matching p with
      | nil =>
        have hr : ¬ p.IsReadable first.opcode := by
          intro hr
          have hf := (mem_matching.1 hmem)
          have := mem_matching.2 ⟨hf.1, (matches_extend_iff more hr).1 hf.2⟩
          rw [hm] at this
          exact List.not_mem_nil this
        have hf := mem_matching.1 hmem
        exact ⟨p.missingEnd,
          verdict_of_outcome (.unread hm (mem_unreadable.2 ⟨hf.1, hf.2.isCandidate, hr⟩)),
          length_lt_missingEnd hr, missingEnd_le_lengthOf more hr⟩
      | cons e es =>
        have he := hsame e (hm ▸ List.mem_cons_self)
        refine ⟨p.lengthOf e.opcode, verdict_of_outcome (.cutShort ?_ ?_ ?_ ?_), ?_, ?_⟩
        · rw [hm, List.head?_cons]
        · intro e' he'
          rw [hsame e' he', he]
        all_goals omega
    · have heq := matching_extend_of_length_le more hle hall
      rw [heq] at hh hmem
      have hr := (mem_matching.1 hmem).2.1
      have hl := lengthOf_extend more hr
      rw [instruction_extend more hr]
      refine verdict_of_outcome (.decoded hh ?_ (by omega) (by omega))
      intro e he
      rw [hsame e he, hl]

end OpcodeTable

/-- A single byte behind legacy prefixes, of which the next byte has to tell that it is not the
lead byte of a vector prefix. -/
def Instruction.EndsInLead (d : Instruction) : Prop :=
  d.prefixes.extended = none ∧ d.prefixes.map = .primary ∧
    d.mainByte ∈ [0xC4, 0xC5, 0x62, 0x8F] ∧ d.length = d.prefixes.legacy.toList.length + 1

namespace OpcodeTable

open DecodePoint

variable {t : OpcodeTable} {bytes : List UInt8} {mode : Mode} {d : Instruction}

theorem point_of_decode (h : t.decode bytes mode = .ok d) :
    ∃ p, locate bytes mode = .ok p ∧ verdict p (t.trials p) = .ok d ∧ p.bytes = bytes ∧
      d.prefixes = p.prefixes ∧ d.mainByte = p.mainByte ∧ p.opcodeEnd ≤ d.length ∧
      d.length ≤ maxLength ∧ d.length ≤ bytes.length := by
  rw [decode_eq_locate] at h
  cases hp : locate bytes mode with
  | error e =>
    rw [hp] at h
    cases h
  | ok p =>
    simp only [hp] at h
    have hb := (of_ofReading hp).2.1
    have ho := t.outcome_verdict p
    rw [h] at ho
    cases ho with
    | decoded hh hall hmax hlen =>
      exact ⟨p, rfl, h, hb, rfl, rfl, p.opcodeEnd_le_lengthOf _, hmax, hb ▸ hlen⟩

theorem endsInLead_iff {p : DecodePoint} (hp : locate bytes mode = .ok p)
    (hs : d.prefixes = p.prefixes) (hb : d.mainByte = p.mainByte) :
    d.EndsInLead ↔ p.isLead = true ∧ d.length = p.opcodeEnd := by
  simp only [Instruction.EndsInLead, isLead, Bool.and_eq_true, Option.isNone_iff_eq_none,
    beq_iff_eq, isSome_ofByte?_iff, hs, hb, opcodeEnd]
  constructor
  · rintro ⟨he, hm, hl, hlen⟩
    rw [PrefixState.read_plain (of_ofReading hp).1 he hm]
    exact ⟨⟨⟨he, hm⟩, hl⟩, hlen⟩
  · rintro ⟨⟨⟨he, hm⟩, hl⟩, hlen⟩
    rw [PrefixState.read_plain (of_ofReading hp).1 he hm] at hlen
    exact ⟨he, hm, hl, hlen⟩

/-- An instruction that is cut short asks for bytes, and never for more than it has; one that is
whole does not depend on what follows, save that a lead byte takes a look at the next byte. -/
theorem decode_take (h : t.decode bytes mode = .ok d) (k : Nat) :
    (k < d.length → ∃ needed, t.decode (bytes.take k) mode = .error (.truncated needed k) ∧
      k < needed ∧ needed ≤ d.length) ∧
    (d.length ≤ k → k ≤ bytes.length →
      (¬ (k = d.length ∧ d.EndsInLead) → t.decode (bytes.take k) mode = .ok d) ∧
      (k = d.length ∧ d.EndsInLead →
        t.decode (bytes.take k) mode = .error (.truncated (k + 1) k))) := by
  obtain ⟨p, hp, hv, hb, hs, hm, hend, -, hlen⟩ := point_of_decode h
  have hlead := endsInLead_iff hp hs hm
  by_cases hk : k ≤ bytes.length
  · have hl : (bytes.take k).length = k := by rw [List.length_take]; omega
    rcases locate_take hp hk with ⟨needed, ht, hlt, hn⟩ | ⟨hla, q, ht, hqb, rfl⟩
    · -- the cut is in front of the main byte, or takes away the look behind a lead byte
      have hd : t.decode (bytes.take k) mode = .error (.truncated needed k) := by
        rw [decode_eq_locate, ht]
      refine ⟨fun hkd => ⟨needed, hd, hlt, ?_⟩, fun hkd _ => ⟨fun hnot => ?_, fun hend => ?_⟩⟩
      · rcases hn with hn | ⟨_, _, hn⟩ <;> omega
      · rcases hn with hn | ⟨hi, hke, hn⟩
        · omega
        · exact absurd ⟨by omega, hlead.2 ⟨hi, by omega⟩⟩ hnot
      · rcases hn with hn | ⟨_, _, hn⟩
        · have := (hlead.1 hend.2).2
          omega
        · rw [hd, hn]
    · have hd : t.decode (bytes.take k) mode = verdict q (t.trials q) := by
        rw [decode_eq_locate, ht]
      have hcut := verdict_of_extend _ hv
      rw [hqb, hl] at hcut
      rw [hd]
      refine ⟨hcut.1, fun hkd _ => ⟨fun _ => hcut.2 hkd, fun ⟨hkd, hend⟩ => ?_⟩⟩
      obtain ⟨hi, hde⟩ := hlead.1 hend
      rw [lookahead, hi, if_pos rfl] at hla
      omega
  · exact ⟨fun hkd => by omega, fun _ hk' => absurd hk' hk⟩

/-- The lead byte of a vector prefix as an opcode of one byte. -/
def loneLeadTable : OpcodeTable :=
  ⟨[⟨"les".toList, ⟨{ OpcodeFields.initial with mainByte := 0xC4 }, by decide⟩⟩]⟩

theorem decode_take_lone_lead :
    ∃ d, loneLeadTable.decode [0x2E, 0xC4, 0x05] .ia32 = .ok d ∧ d.length = 2 ∧
      (∃ needed, loneLeadTable.decode [0x2E] .ia32 = .error (.truncated needed 1) ∧
        1 < needed ∧ needed ≤ 2) ∧
      loneLeadTable.decode [0x2E, 0xC4] .ia32 = .error (.truncated 3 2) := by
  have h : ∃ d, loneLeadTable.decode [0x2E, 0xC4, 0x05] .ia32 = .ok d ∧ d.length = 2 ∧
      d.EndsInLead := ⟨_, rfl, rfl, rfl, rfl, by decide, rfl⟩
  obtain ⟨d, hd, hl, he⟩ := h
  obtain ⟨needed, hcut, hlt, hle⟩ := (decode_take hd 1).1 (by omega)
  exact ⟨d, hd, hl, ⟨needed, hcut, hlt, by omega⟩,
    ((decode_take hd 2).2 (by omega) (by decide)).2 ⟨hl.symm, he⟩⟩

end OpcodeTable
end X86Encoding
