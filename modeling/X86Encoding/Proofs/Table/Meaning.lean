import X86Encoding.Proofs.Table.Point
import X86Encoding.Proofs.Table.Trial

/-!
Decoding as a choice among the entries that match: what the verdict is depends only on these,
in table order, and on whether a candidate could not be read. The order in which a verdict
tests its cases is gone.
-/

set_option autoImplicit false

namespace X86Encoding

def DecodePoint.instruction (p : DecodePoint) (e : TableEntry) : Instruction where
  mnemonic := e.mnemonic
  opcode := e.opcode
  prefixes := p.prefixes
  mainByte := p.mainByte
  modRM := p.modRMOf e.opcode
  imm8 := p.imm8Of e.opcode
  length := p.lengthOf e.opcode

namespace OpcodeTable

open DecodePoint

variable {t : OpcodeTable} {p : DecodePoint} {e : TableEntry}

def matching (t : OpcodeTable) (p : DecodePoint) : List TableEntry :=
  t.entries.filter fun e => p.Matches e

def unreadable (t : OpcodeTable) (p : DecodePoint) : List TableEntry :=
  t.entries.filter fun e => p.IsCandidate e ∧ ¬ p.IsReadable e.opcode

theorem mem_matching : e ∈ t.matching p ↔ e ∈ t.entries ∧ p.Matches e := by simp [matching]

theorem mem_unreadable :
    e ∈ t.unreadable p ↔ e ∈ t.entries ∧ p.IsCandidate e ∧ ¬ p.IsReadable e.opcode := by
  simp [unreadable]

@[simp] theorem found_attempt (e : TableEntry) :
    (p.attempt e).found? = if p.Matches e then some (p.matchOf e) else none := by
  by_cases h : p.IsReadable e.opcode
  · rw [attempt_of_isReadable h]
    split <;> rfl
  · rw [attempt_of_not_isReadable h, if_neg (fun hm => h hm.1)]
    rfl

@[simp] theorem needs_attempt (e : TableEntry) :
    (p.attempt e).needs? = if p.IsReadable e.opcode then none else some p.missingEnd := by
  by_cases h : p.IsReadable e.opcode
  · rw [attempt_of_isReadable h, if_pos h]
    split <;> rfl
  · rw [attempt_of_not_isReadable h, if_neg h]
    rfl

theorem found_trials (t : OpcodeTable) (p : DecodePoint) :
    (t.trials p).filterMap Trial.found? = (t.matching p).map p.matchOf := by
  unfold trials candidates matching
  induction t.entries with
  | nil => rfl
  | cons e es ih =>
    by_cases hc : e.opcode.acceptsMainByte p.prefixes p.mainByte
    · by_cases hm : p.Matches e
      · simpa [hc, hm] using ih
      · simpa [hc, hm] using ih
    · have hm : ¬ p.Matches e := fun hm => hc hm.isCandidate
      simpa [hc, hm] using ih

theorem needs_trials (t : OpcodeTable) (p : DecodePoint) :
    (t.trials p).filterMap Trial.needs? = (t.unreadable p).map fun _ => p.missingEnd := by
  unfold trials candidates unreadable IsCandidate
  induction t.entries with
  | nil => rfl
  | cons e es ih =>
    by_cases hc : e.opcode.acceptsMainByte p.prefixes p.mainByte
    · by_cases hr : p.IsReadable e.opcode
      · simpa [hc, hr] using ih
      · simpa [hc, hr] using ih
    · simpa [hc] using ih

/-- All the verdicts that there are, each with what it takes. -/
inductive Outcome (t : OpcodeTable) (p : DecodePoint) : Except DecodeError Instruction → Prop where
  | decoded {first : TableEntry} : (t.matching p).head? = some first →
      (∀ e ∈ t.matching p, p.lengthOf e.opcode = p.lengthOf first.opcode) →
      p.lengthOf first.opcode ≤ maxLength → p.lengthOf first.opcode ≤ p.bytes.length →
      Outcome t p (.ok (p.instruction first))
  | cutShort {first : TableEntry} : (t.matching p).head? = some first →
      (∀ e ∈ t.matching p, p.lengthOf e.opcode = p.lengthOf first.opcode) →
      p.lengthOf first.opcode ≤ maxLength → p.bytes.length < p.lengthOf first.opcode →
      Outcome t p (.error (.truncated (p.lengthOf first.opcode) p.bytes.length))
  | tooLong {first : TableEntry} : (t.matching p).head? = some first →
      (∀ e ∈ t.matching p, p.lengthOf e.opcode = p.lengthOf first.opcode) →
      maxLength < p.lengthOf first.opcode →
      Outcome t p (.error (.tooLong (p.lengthOf first.opcode)))
  | ambiguous {e e' : TableEntry} : e ∈ t.matching p → e' ∈ t.matching p →
      p.lengthOf e.opcode ≠ p.lengthOf e'.opcode →
      Outcome t p (.error (.ambiguous ((t.matching p).map (·.mnemonic))))
  | unread {e : TableEntry} : t.matching p = [] → e ∈ t.unreadable p →
      Outcome t p (.error (.truncated p.missingEnd p.bytes.length))
  | noMatch : t.matching p = [] → t.unreadable p = [] →
      Outcome t p (.error (.noMatch (p.bytes.take p.opcodeEnd)))

theorem outcome_verdict (t : OpcodeTable) (p : DecodePoint) :
    t.Outcome p (verdict p (t.trials p)) := by
  unfold verdict
  rw [found_trials, needs_trials]
  cases hm : t.matching p with
  | nil =>
    cases hu : t.unreadable p with
    | nil => exact .noMatch hm hu
    | cons e es =>
      have hmax : ((e :: es).map fun _ => p.missingEnd).max? = some p.missingEnd := by
        rw [List.map_const', List.max?_replicate_of_pos (by simp)]
      simp only [List.map_nil, hmax]
      exact .unread hm (hu ▸ List.mem_cons_self)
  | cons first rest =>
    have hhead : (t.matching p).head? = some first := by rw [hm, List.head?_cons]
    simp only [List.map_cons]
    split
    · rename_i hany
      obtain ⟨m, hmem, hne⟩ := List.any_eq_true.1 hany
      obtain ⟨e, he, rfl⟩ := List.mem_map.1 hmem
      have hmem : e ∈ t.matching p := hm ▸ List.mem_cons_of_mem _ he
      have hfirst : first ∈ t.matching p := hm ▸ List.mem_cons_self
      have hambiguous := Outcome.ambiguous hmem hfirst (by simpa using hne)
      rw [hm] at hambiguous
      simpa [Function.comp_def] using hambiguous
    · rename_i hany
      have hall : ∀ e ∈ t.matching p, p.lengthOf e.opcode = p.lengthOf first.opcode := by
        intro e he
        rw [hm] at he
        rcases List.mem_cons.1 he with rfl | he
        · rfl
        · simp only [Bool.not_eq_true, List.any_eq_false, List.mem_map] at hany
          simpa using hany _ ⟨e, he, rfl⟩
      split
      · exact .tooLong hhead hall (by assumption)
      · rename_i hmax
        have hmax := Nat.le_of_not_lt hmax
        split
        · exact .cutShort hhead hall hmax (by assumption)
        · rename_i hlen
          exact .decoded hhead hall hmax (Nat.le_of_not_lt hlen)

/-- The cases exclude each other, so what a verdict takes is also enough for it. -/
theorem verdict_of_outcome {r : Except DecodeError Instruction} (h : t.Outcome p r) :
    verdict p (t.trials p) = r := by
  have hv := t.outcome_verdict p
  generalize verdict p (t.trials p) = v at hv
  cases h <;> cases hv <;> grind

theorem decode_eq_verdict (t : OpcodeTable) {bytes : List UInt8} {mode : Mode} {s : PrefixState}
    {n : Nat} (hr : PrefixState.read bytes mode = .ok (s, n)) (hn : n < bytes.length) :
    t.decode bytes mode =
      verdict ⟨bytes, s, n, bytes[n]⟩ (t.trials ⟨bytes, s, n, bytes[n]⟩) := by
  simp only [decode, hr, List.getElem?_eq_getElem hn]

theorem decode_meaning (t : OpcodeTable) {bytes : List UInt8} {mode : Mode} {s : PrefixState}
    {n : Nat} (hr : PrefixState.read bytes mode = .ok (s, n)) (hn : n < bytes.length) :
    let p : DecodePoint := ⟨bytes, s, n, bytes[n]⟩
    (∀ d, t.decode bytes mode = .ok d ↔
      ∃ first rest, t.matching p = first :: rest ∧
        (∀ e ∈ t.matching p, p.lengthOf e.opcode = d.length) ∧ d.length ≤ 15 ∧
        d.length ≤ bytes.length ∧
        d = { mnemonic := first.mnemonic, opcode := first.opcode, prefixes := s,
              mainByte := bytes[n], modRM := p.modRMOf first.opcode,
              imm8 := p.imm8Of first.opcode, length := p.lengthOf first.opcode }) ∧
    (t.matching p = [] → t.unreadable p ≠ [] →
      ∃ needed, bytes.length < needed ∧
        t.decode bytes mode = .error (.truncated needed bytes.length)) ∧
    (t.matching p = [] → t.unreadable p = [] →
      t.decode bytes mode = .error (.noMatch (bytes.take (n + 1)))) ∧
    ((∃ e ∈ t.matching p, ∃ e' ∈ t.matching p, p.lengthOf e.opcode ≠ p.lengthOf e'.opcode) →
      t.decode bytes mode = .error (.ambiguous ((t.matching p).map (·.mnemonic)))) ∧
    (∀ L, t.matching p ≠ [] → (∀ e ∈ t.matching p, p.lengthOf e.opcode = L) →
      (15 < L → t.decode bytes mode = .error (.tooLong L)) ∧
      (L ≤ 15 → bytes.length < L →
        t.decode bytes mode = .error (.truncated L bytes.length))) := by
  intro p
  rw [t.decode_eq_verdict hr hn]
  refine ⟨fun d => ⟨fun h => ?_, ?_⟩, fun hm hu => ?_, fun hm hu => ?_, ?_, fun L hm hall => ?_⟩
  · have ho := t.outcome_verdict p
    rw [h] at ho
    cases ho with
    | decoded hh hall hmax hlen =>
      obtain ⟨rest, hm⟩ := List.head?_eq_some_iff.1 hh
      exact ⟨_, rest, hm, hall, hmax, hlen, rfl⟩
  · rintro ⟨first, rest, hm, hall, hmax, hlen, rfl⟩
    have hh : (t.matching p).head? = some first := by rw [hm, List.head?_cons]
    exact verdict_of_outcome (.decoded hh hall hmax hlen)
  · obtain ⟨e, he⟩ := List.exists_mem_of_ne_nil _ hu
    exact ⟨p.missingEnd, length_lt_missingEnd (mem_unreadable.1 he).2.2,
      verdict_of_outcome (.unread hm he)⟩
  · exact verdict_of_outcome (.noMatch hm hu)
  · rintro ⟨e, he, e', he', hne⟩
    exact verdict_of_outcome (.ambiguous he he' hne)
  · obtain ⟨first, rest, hfr⟩ := List.exists_cons_of_ne_nil hm
    have hh : (t.matching p).head? = some first := by rw [hfr, List.head?_cons]
    have hf : p.lengthOf first.opcode = L := hall first (hfr ▸ List.mem_cons_self)
    subst hf
    exact ⟨fun hmax => verdict_of_outcome (.tooLong hh hall hmax),
      fun hmax hlen => verdict_of_outcome (.cutShort hh hall hmax hlen)⟩

/-- `d5 0a` and `d5 ib`, of which the second describes all that the first does. -/
def adjustTable : OpcodeTable :=
  ⟨[⟨"aad".toList, ⟨{ OpcodeFields.initial with
      mainByte := 0xD5, immediate := .fixed 1, opcodeImmediate := some 0x0A }, by decide⟩⟩,
    ⟨"aadx".toList, ⟨{ OpcodeFields.initial with
      mainByte := 0xD5, immediate := .fixed 1 }, by decide⟩⟩]⟩

theorem decode_meaning_adjust :
    PrefixState.read [0xD5, 0x0A, 0x90] .ia32 = .ok (.initial .ia32, 0) ∧
      0 < [0xD5, 0x0A, 0x90].length ∧
      ∃ d, adjustTable.decode [0xD5, 0x0A, 0x90] .ia32 = .ok d ∧ d.mnemonic = "aad".toList ∧
        d.imm8 = some 0x0A ∧ d.length = 2 := by
  have hr : PrefixState.read [0xD5, 0x0A, 0x90] .ia32 = .ok (.initial .ia32, 0) := rfl
  have hm : adjustTable.matching ⟨[0xD5, 0x0A, 0x90], .initial .ia32, 0, 0xD5⟩ =
      adjustTable.entries := by decide
  exact ⟨hr, by decide, _, ((decode_meaning adjustTable hr (by decide)).1 _).2
    ⟨_, _, hm, by decide, by decide, by decide, rfl⟩, rfl, by decide, by decide⟩

end OpcodeTable
end X86Encoding
