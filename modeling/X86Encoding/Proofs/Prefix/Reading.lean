import X86Encoding.Prefix.Reading
import X86Encoding.Proofs.Prefix.LegacyList

/-!
What is read as prefixes, and what more bytes make of it. The run of legacy prefixes and the
escape bytes are settled by the first byte that does not belong to them; `Reads` lists the ways
to go on behind the run.
-/

set_option autoImplicit false

namespace X86Encoding

namespace LegacyPrefix

theorem leading_length_le (bytes : List UInt8) : (leading bytes).length ≤ bytes.length := by
  induction bytes with
  | nil => simp [leading]
  | cons b bytes ih =>
    unfold leading
    split
    · simpa using ih
    · simp

theorem leading_append_of_lt {bytes : List UInt8} (more : List UInt8)
    (h : (leading bytes).length < bytes.length) : leading (bytes ++ more) = leading bytes := by
  induction bytes with
  | nil => simp at h
  | cons b bytes ih =>
    rw [List.cons_append, leading, leading]
    cases hb : ofByte? b with
    | none => rfl
    | some p =>
      simp only [leading, hb, List.length_cons, Nat.add_lt_add_iff_right] at h
      simp only [ih h]

theorem leading_append_of_eq {bytes : List UInt8} (more : List UInt8)
    (h : (leading bytes).length = bytes.length) :
    leading (bytes ++ more) = leading bytes ++ leading more := by
  induction bytes with
  | nil => simp [leading]
  | cons b bytes ih =>
    rw [List.cons_append, leading, leading]
    cases hb : ofByte? b with
    | none => simp [leading, hb] at h
    | some p =>
      simp only [leading, hb, List.length_cons, Nat.add_right_cancel_iff] at h
      simp only [ih h, List.cons_append]

end LegacyPrefix

namespace OpcodeMap

@[simp, grind =] theorem leading_singleton (b : UInt8) :
    leading [b] = if b = 0x0F then (.escape0F, 1) else (.primary, 0) := by
  unfold leading
  split <;> simp_all

@[simp, grind =] theorem leading_cons_cons (b c : UInt8) (rest : List UInt8) :
    leading (b :: c :: rest) =
      if b = 0x0F then
        if c = 0x38 then (.escape0F38, 2) else if c = 0x3A then (.escape0F3A, 2)
        else (.escape0F, 1)
      else (.primary, 0) := by
  by_cases hb : b = 0x0F
  · subst hb
    by_cases hc : c = 0x38
    · subst hc; rfl
    · by_cases hd : c = 0x3A
      · subst hd; rfl
      · rw [if_pos rfl, if_neg hc, if_neg hd]
        unfold leading
        split <;> simp_all
  · rw [if_neg hb]
    unfold leading
    split <;> simp_all

theorem leading_of_ne {b : UInt8} (rest : List UInt8) (h : b ≠ 0x0F) :
    leading (b :: rest) = (.primary, 0) := by
  unfold leading
  split <;> simp_all

theorem leading_size_le (rest : List UInt8) : (leading rest).2 ≤ rest.length := by
  unfold leading
  split <;> simp

theorem leading_append_of_lt {rest : List UInt8} (more : List UInt8)
    (h : (leading rest).2 < rest.length) : leading (rest ++ more) = leading rest := by
  rcases rest with _ | ⟨b, _ | ⟨c, rest⟩⟩
  · simp at h
  · by_cases hb : b = 0x0F
    · simp [hb] at h
    · cases more with
      | nil => rfl
      | cons d more => simp [hb]
  · simp

theorem leading_size_append (rest more : List UInt8) :
    (leading rest).2 ≤ (leading (rest ++ more)).2 := by
  rcases rest with _ | ⟨b, _ | ⟨c, rest⟩⟩
  · exact Nat.zero_le _
  · cases more with
    | nil => exact Nat.le_refl _
    | cons d more => grind
  · simp

theorem leading_size_of_primary {rest : List UInt8} (h : (leading rest).1 = .primary) :
    (leading rest).2 = 0 := by
  unfold leading at h ⊢
  split at h <;> simp_all

end OpcodeMap

namespace VectorLead

theorem payloadSize_pos (lead : VectorLead) : 0 < lead.payloadSize := by
  cases lead <;> decide

theorem byte_of_ofByte? {b : UInt8} {lead : VectorLead} (h : ofByte? b = some lead) :
    lead.byte = b := by
  have := List.find?_some h
  simpa using this

end VectorLead

namespace PrefixState

variable {available offset n k : Nat} {mode : Mode} {legacy : PrefixList} {rest : List UInt8}
  {s : PrefixState}

theorem readEscape_eq (mode : Mode) (legacy : PrefixList) (extended : Option ExtendedPrefix)
    (offset : Nat) (rest : List UInt8) :
    readEscape mode legacy extended offset rest =
      .ok (⟨mode, legacy, extended, (OpcodeMap.leading rest).1⟩,
        offset + (OpcodeMap.leading rest).2) := rfl

theorem offset_le_of_readAfterRex {rex : Rex}
    (h : readAfterRex available mode legacy rex offset rest = .ok (s, n)) : offset ≤ n := by
  unfold readAfterRex at h
  split at h
  · cases h
  · split at h
    · cases h
    · rw [readEscape_eq] at h
      cases h
      exact Nat.le_add_right ..

theorem readAfterLead_cases {lead : VectorLead}
    (h : readAfterLead available mode legacy lead offset rest = .ok (s, n)) :
    ∃ b tail, rest = b :: tail ∧
      ((lead.starts mode b = false ∧ s = ⟨mode, legacy, none, .primary⟩ ∧ n = offset) ∨
        (lead.starts mode b = true ∧ legacy.toList.any displaced.contains = false ∧
          lead.payloadSize ≤ rest.length ∧
          ∃ v, lead.read? (rest.take lead.payloadSize) = some v ∧
            s = ⟨mode, legacy, some (.vector v), v.map⟩ ∧ n = offset + 1 + lead.payloadSize)) := by
  cases rest with
  | nil => cases h
  | cons b tail =>
    refine ⟨b, tail, rfl, ?_⟩
    simp only [readAfterLead] at h
    split at h
    · split at h
      · cases h
      · split at h
        · cases h
        · split at h
          · cases h
          · rename_i hs hd hl _ v hv
            cases h
            exact .inr ⟨hs, by simpa using hd, by omega, v, hv, rfl, rfl⟩
    · rename_i hs
      cases h
      exact .inl ⟨by simpa using hs, rfl, rfl⟩

/-- The ways to read a state from `rest`, which follows the legacy prefixes: each with what it
takes, and the number of bytes that it uses. -/
inductive Reads (mode : Mode) (legacy : PrefixList) : List UInt8 → PrefixState → Nat → Prop where
  | plain {b : UInt8} {rest : List UInt8} : (mode.isLong && Rex.isByte b) = false →
      (∀ lead, VectorLead.ofByte? b = some lead →
        ∃ c tail, rest = c :: tail ∧ lead.starts mode c = false) →
      Reads mode legacy (b :: rest) ⟨mode, legacy, none, (OpcodeMap.leading (b :: rest)).1⟩
        (OpcodeMap.leading (b :: rest)).2
  | rex {b c : UInt8} {rest : List UInt8} : mode.isLong = true → Rex.isByte b = true →
      LegacyPrefix.ofByte? c = none → Rex.isByte c = false →
      Reads mode legacy (b :: c :: rest)
        ⟨mode, legacy, some (.rex (.ofByte b)), (OpcodeMap.leading (c :: rest)).1⟩
        (1 + (OpcodeMap.leading (c :: rest)).2)
  | vector {lead : VectorLead} {b : UInt8} {rest : List UInt8} {v : VectorPrefix} :
      lead.starts mode b = true → (∀ p ∈ legacy.toList, p ∉ displaced) →
      lead.payloadSize ≤ (b :: rest).length →
      lead.read? ((b :: rest).take lead.payloadSize) = some v →
      Reads mode legacy (lead.byte :: b :: rest) ⟨mode, legacy, some (.vector v), v.map⟩
        (1 + lead.payloadSize)

theorem reads_of_readAfterLegacy
    (h : readAfterLegacy available mode legacy offset rest = .ok (s, n)) :
    ∃ k, n = offset + k ∧ Reads mode legacy rest s k := by
  unfold readAfterLegacy at h
  split at h
  · cases h
  · rename_i b rest
    split at h
    · rename_i hrex
      rw [Bool.and_eq_true] at hrex
      cases rest with
      | nil => cases h
      | cons c rest =>
        simp only [readAfterRex] at h
        split at h
        · cases h
        · rename_i hc
          rw [readEscape_eq] at h
          cases h
          simp only [Bool.or_eq_true, not_or, Bool.not_eq_true, Option.isSome_eq_false_iff,
            Option.isNone_iff_eq_none] at hc
          exact ⟨_, Nat.add_assoc .., .rex hrex.1 hrex.2 hc.1 hc.2⟩
    · rename_i hrex
      rw [Bool.not_eq_true] at hrex
      split at h
      · rename_i lead hb
        have hlead := VectorLead.byte_of_ofByte? hb
        obtain ⟨c, tail, rfl, ⟨hs, rfl, hn⟩ | ⟨hs, hd, hl, v, hv, rfl, hn⟩⟩ :=
          readAfterLead_cases h
        · -- the lead byte is an opcode, and no escape byte
          have hne : b ≠ 0x0F := by
            rw [← hlead]
            cases lead <;> decide
          have hopcode : ∀ lead', VectorLead.ofByte? b = some lead' →
              ∃ d tail', c :: tail = d :: tail' ∧ lead'.starts mode d = false := by
            intro lead' hb'
            rw [hb] at hb'
            cases hb'
            exact ⟨c, tail, rfl, hs⟩
          have hread : Reads mode legacy _ _ _ := .plain hrex hopcode
          rw [OpcodeMap.leading_of_ne _ hne] at hread
          exact ⟨0, hn, hread⟩
        · subst hlead
          refine ⟨1 + lead.payloadSize, by omega, .vector hs ?_ hl hv⟩
          simpa using hd
      · rename_i hb
        rw [readEscape_eq] at h
        cases h
        exact ⟨_, rfl, .plain hrex (by simp [hb])⟩

theorem Reads.mode_legacy (h : Reads mode legacy rest s k) :
    s.mode = mode ∧ s.legacy = legacy := by
  cases h <;> exact ⟨rfl, rfl⟩

theorem offset_le_of_readAfterLegacy
    (h : readAfterLegacy available mode legacy offset rest = .ok (s, n)) : offset ≤ n := by
  obtain ⟨k, rfl, -⟩ := reads_of_readAfterLegacy h
  exact Nat.le_add_right offset k

theorem Reads.eq_zero_of_plain (h : Reads mode legacy rest s k) (he : s.extended = none)
    (hm : s.map = .primary) : k = 0 := by
  cases h with
  | plain => exact OpcodeMap.leading_size_of_primary hm
  | rex => cases he
  | vector => cases he

/-- What is read, in two parts: the run of legacy prefixes and what follows it. -/
theorem reads_of_read {bytes : List UInt8} (h : read bytes mode = .ok (s, n)) :
    s.legacy.toList = LegacyPrefix.leading bytes ∧
      ∃ k, n = s.legacy.toList.length + k ∧
        Reads mode s.legacy (bytes.drop s.legacy.toList.length) s k := by
  simp only [read] at h
  split at h
  · cases h
  · rename_i legacy ho
    obtain ⟨k, hn, hr⟩ := reads_of_readAfterLegacy h
    have hl := PrefixList.toList_of_ofList ho
    obtain ⟨-, rfl⟩ := hr.mode_legacy
    rw [hl]
    exact ⟨rfl, k, hn, hr⟩

theorem read_plain {bytes : List UInt8} (h : read bytes mode = .ok (s, n))
    (he : s.extended = none) (hm : s.map = .primary) : n = s.legacy.toList.length := by
  obtain ⟨-, k, hn, hr⟩ := reads_of_read h
  rw [hn, hr.eq_zero_of_plain he hm, Nat.add_zero]

end PrefixState
end X86Encoding
