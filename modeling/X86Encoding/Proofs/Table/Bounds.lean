import X86Encoding.Proofs.Prefix.Lossless
import X86Encoding.Proofs.Table.Extension
import X86Encoding.Proofs.Table.Places

set_option autoImplicit false

namespace X86Encoding

namespace PrefixState

variable {available offset n : Nat} {mode : Mode} {legacy : PrefixList}
  {rest bytes : List UInt8}

theorem readAfterLegacy_ne_tooLong :
    readAfterLegacy available mode legacy offset rest ≠ .error (.tooLong n) := by
  intro h
  unfold readAfterLegacy at h
  split at h
  · cases h
  · split at h
    · unfold readAfterRex at h
      split at h
      · cases h
      · split at h <;> cases h
    · split at h
      · unfold readAfterLead at h
        split at h
        · cases h
        · repeat' split at h
          all_goals cases h
      · cases h

/-- Only the run of legacy prefixes at the start is ever too long. -/
theorem leading_of_tooLong (h : read bytes mode = .error (.tooLong n)) :
    n = 8 ∧ 8 ≤ bytes.length ∧ ∀ b ∈ bytes.take 8, (LegacyPrefix.ofByte? b).isSome = true := by
  by_cases hc : (LegacyPrefix.leading bytes).length ≤ PrefixList.capacity
  · obtain ⟨legacy, ho, -⟩ := PrefixList.ofList_of_le hc
    simp only [read, ho] at h
    exact absurd h readAfterLegacy_ne_tooLong
  · have hc : 8 ≤ (LegacyPrefix.leading bytes).length := Nat.lt_of_not_le hc
    have hle := LegacyPrefix.leading_length_le bytes
    simp only [read, PrefixList.ofList_of_lt hc] at h
    cases h
    refine ⟨rfl, Nat.le_trans hc hle, fun b hb => ?_⟩
    have htake : bytes.take 8 = ((LegacyPrefix.leading bytes).map LegacyPrefix.byte).take 8 := by
      rw [← LegacyPrefix.take_leading, List.take_take, Nat.min_eq_left hc]
    rw [htake] at hb
    obtain ⟨p, -, rfl⟩ := List.mem_map.1 (List.mem_of_mem_take hb)
    rw [LegacyPrefix.ofByte?_byte]
    rfl

end PrefixState

namespace OpcodeTable

open DecodePoint

inductive InBounds (bytes : List UInt8) (mode : Mode) : Except DecodeError Instruction → Prop where
  | decoded {d : Instruction} {s : PrefixState} {n : Nat} :
      PrefixState.read bytes mode = .ok (s, n) → bytes[n]? = some d.mainByte →
      n + 1 ≤ d.length → d.length ≤ 15 → d.length ≤ bytes.length → InBounds bytes mode (.ok d)
  | truncated {needed : Nat} : bytes.length < needed →
      InBounds bytes mode (.error (.truncated needed bytes.length))
  | noMatch {s : PrefixState} {n : Nat} {mainByte : UInt8} :
      PrefixState.read bytes mode = .ok (s, n) → bytes[n]? = some mainByte →
      InBounds bytes mode (.error (.noMatch (bytes.take (n + 1))))
  | ambiguous (names : List Text) : InBounds bytes mode (.error (.ambiguous names))
  | tooLong {n : Nat} : 15 < n → InBounds bytes mode (.error (.tooLong n))
  | tooManyPrefixes : 8 ≤ bytes.length →
      (∀ b ∈ bytes.take 8, (LegacyPrefix.ofByte? b).isSome = true) →
      InBounds bytes mode (.error (.tooLong 8))
  | invalidPrefix {offset : Nat} (fault : PrefixFault) : offset < bytes.length →
      InBounds bytes mode (.error (.invalidPrefix offset fault))

variable {t : OpcodeTable} {bytes : List UInt8} {mode : Mode} {e : DecodeError}

theorem inBounds_of_locate_error (h : locate bytes mode = .error e) :
    InBounds bytes mode (.error e) := by
  have hc := locate_continues bytes [] mode
  generalize locate (bytes ++ []) mode = r' at hc
  rw [h] at hc
  cases hc with
  | truncated hlt => exact .truncated hlt
  | invalidPrefix hlt => exact .invalidPrefix _ hlt
  | tooLong =>
    cases hr : PrefixState.read bytes mode with
    | error e =>
      rw [locate, hr] at h
      cases h
      obtain ⟨-, hlen, hall⟩ := PrefixState.leading_of_tooLong hr
      exact .tooManyPrefixes hlen hall
    | ok r =>
      -- once the prefixes are read, only the main byte can be missing
      rw [locate, hr, ofReading] at h
      split at h <;> cases h

theorem inBounds_of_outcome {p : DecodePoint} (hp : locate bytes mode = .ok p)
    {r : Except DecodeError Instruction} (h : t.Outcome p r) : InBounds bytes mode r := by
  obtain ⟨hr, rfl, hm⟩ := of_ofReading hp
  cases h with
  | decoded hh hall hmax hlen =>
    exact .decoded hr hm (p.opcodeEnd_le_lengthOf _) hmax hlen
  | cutShort _ _ _ hlen => exact .truncated hlen
  | tooLong _ _ hmax => exact .tooLong hmax
  | ambiguous => exact .ambiguous _
  | unread _ he => exact .truncated (length_lt_missingEnd (mem_unreadable.1 he).2.2)
  | noMatch => exact .noMatch hr hm

theorem decode_inBounds (t : OpcodeTable) (bytes : List UInt8) (mode : Mode) :
    InBounds bytes mode (t.decode bytes mode) := by
  rw [decode_eq_locate]
  cases hp : locate bytes mode with
  | error e => exact inBounds_of_locate_error hp
  | ok p => exact inBounds_of_outcome hp (t.outcome_verdict p)

/-- Every number and every byte of an answer fits the input, and so does every place that is
read on the way to it. -/
theorem decode_bounds (t : OpcodeTable) (bytes : List UInt8) (mode : Mode) :
    (∀ d, t.decode bytes mode = .ok d →
      ∃ s n, PrefixState.read bytes mode = .ok (s, n) ∧ n + 1 ≤ d.length ∧ d.length ≤ 15 ∧
        d.length ≤ bytes.length ∧ bytes[n]? = some d.mainByte) ∧
    (∀ needed available, t.decode bytes mode = .error (.truncated needed available) →
      available = bytes.length ∧ bytes.length < needed) ∧
    (∀ seen, t.decode bytes mode = .error (.noMatch seen) →
      ∃ s n mainByte, PrefixState.read bytes mode = .ok (s, n) ∧ bytes[n]? = some mainByte ∧
        seen = bytes.take n ++ [mainByte] ∧ seen <+: bytes) ∧
    (∀ n, t.decode bytes mode = .error (.tooLong n) →
      15 < n ∨ (n = 8 ∧ 8 ≤ bytes.length ∧
        ∀ b ∈ bytes.take 8, (LegacyPrefix.ofByte? b).isSome = true)) ∧
    (∀ offset fault, t.decode bytes mode = .error (.invalidPrefix offset fault) →
      offset < bytes.length) ∧
    t.decodeAt bytes mode = some (t.decode bytes mode) := by
  have h := t.decode_inBounds bytes mode
  refine ⟨fun d hd => ?_, fun needed available hd => ?_, fun seen hd => ?_, fun n hd => ?_,
    fun offset fault hd => ?_, t.decodeAt_eq bytes mode⟩
  · rw [hd] at h
    cases h with
    | decoded hr hm hlen hmax hle => exact ⟨_, _, hr, hlen, hmax, hle, hm⟩
  · rw [hd] at h
    cases h with
    | truncated hlt => exact ⟨rfl, hlt⟩
  · rw [hd] at h
    cases h with
    | @noMatch s n mainByte hr hm =>
      refine ⟨s, n, mainByte, hr, hm, ?_, List.take_prefix ..⟩
      rw [List.take_add_one, hm, Option.toList_some]
  · rw [hd] at h
    cases h with
    | tooLong hlt => exact .inl hlt
    | tooManyPrefixes hlen hall => exact .inr ⟨rfl, hlen, hall⟩
  · rw [hd] at h
    cases h with
    | invalidPrefix _ hlt => exact hlt

theorem decode_bounds_adjust :
    (∃ d s n, adjustTable.decode [0x2E, 0xD5, 0x0A] .ia32 = .ok d ∧
      PrefixState.read [0x2E, 0xD5, 0x0A] .ia32 = .ok (s, n) ∧ n + 1 ≤ d.length ∧
      d.length ≤ 3 ∧ [0x2E, 0xD5, 0x0A][n]? = some d.mainByte) ∧
    adjustTable.decode [0x48, 0x48] .x64 = .error (.invalidPrefix 1 .rexNotLast) ∧
      1 < ([0x48, 0x48] : List UInt8).length := by
  obtain ⟨d, hd⟩ : ∃ d, adjustTable.decode [0x2E, 0xD5, 0x0A] .ia32 = .ok d := ⟨_, rfl⟩
  have hwrong : adjustTable.decode [0x48, 0x48] .x64 = .error (.invalidPrefix 1 .rexNotLast) := rfl
  obtain ⟨s, n, hread, hmin, -, hmax, hmain⟩ := (decode_bounds adjustTable _ _).1 d hd
  have hplace := (decode_bounds adjustTable _ _).2.2.2.2.1 _ _ hwrong
  exact ⟨⟨d, s, n, hd, hread, hmin, hmax, hmain⟩, hwrong, hplace⟩

end OpcodeTable
end X86Encoding
