import X86Encoding.Proofs.Byte
import X86Encoding.Proofs.Consistency
import X86Encoding.Proofs.Prefix.Reading

/-!
Reading prefixes loses nothing: the bytes that were read are spelled by the state that came of
them. And only some states come of reading: a vector prefix stands behind no prefix that it
takes the place of, brings its own map, and has the fields of a descriptor.
-/

set_option autoImplicit false

namespace X86Encoding

namespace LegacyPrefix

theorem take_leading (bytes : List UInt8) :
    bytes.take (leading bytes).length = (leading bytes).map byte := by
  induction bytes with
  | nil => rfl
  | cons b bytes ih =>
    rw [leading]
    cases hb : ofByte? b with
    | none => rfl
    | some p => simp only [List.length_cons, List.take_succ_cons, List.map_cons, ih,
        byte_of_ofByte? hb]

theorem ofByte?_behind_leading {bytes : List UInt8} {b : UInt8}
    (h : bytes[(leading bytes).length]? = some b) : ofByte? b = none := by
  induction bytes with
  | nil => cases h
  | cons c bytes ih =>
    rw [leading] at h
    cases hc : ofByte? c with
    | none =>
      simp only [hc, List.length_nil, List.getElem?_cons_zero, Option.some.injEq] at h
      rw [← h, hc]
    | some p =>
      simp only [hc, List.length_cons, List.getElem?_cons_succ] at h
      exact ih h

end LegacyPrefix

namespace OpcodeMap

theorem take_leading (rest : List UInt8) :
    rest.take (leading rest).2 = (leading rest).1.escapeBytes := by
  unfold leading
  split <;> rfl

theorem leading_mem (rest : List UInt8) :
    (leading rest).1 ∈ [primary, escape0F, escape0F38, escape0F3A] := by
  unfold leading
  split <;> decide

theorem leading_size_le_two (rest : List UInt8) : (leading rest).2 ≤ 2 := by
  unfold leading
  split <;> decide

end OpcodeMap

theorem Mode.isLong_iff (m : Mode) : m.isLong = true ↔ m = .x64 := by
  cases m <;> decide

theorem Rex.toByte_ofByte {b : UInt8} (h : isByte b = true) : (ofByte b).toByte = b := by
  have hbyte : isByte b = true → (ofByte b).toByte = b :=
    byteCases b b.toNat_lt (by decide +kernel)
  exact hbyte h

/-- The bytes that spell a prefix. REX has one spelling; a vector prefix has its lead byte and
the fields that it is read from. -/
inductive ExtendedPrefix.Spelled : Option ExtendedPrefix → List UInt8 → Prop where
  | absent : Spelled none []
  | rex (p : Rex) : Spelled (some (.rex p)) [p.toByte]
  | vex2 (b : UInt8) : Spelled (some (.vector (.ofVex2 b))) [0xC5, b]
  | vex3 {b₁ b₂ : UInt8} {v : VectorPrefix} : VectorPrefix.ofVex3? b₁ b₂ = some v →
      Spelled (some (.vector v)) [0xC4, b₁, b₂]
  | xop {b₁ b₂ : UInt8} {v : VectorPrefix} : VectorPrefix.ofXop? b₁ b₂ = some v →
      Spelled (some (.vector v)) [0x8F, b₁, b₂]
  | evex {p₀ p₁ p₂ : UInt8} {v : VectorPrefix} : VectorPrefix.ofEvex? p₀ p₁ p₂ = some v →
      Spelled (some (.vector v)) [0x62, p₀, p₁, p₂]

theorem VectorLead.spelled_of_read? {lead : VectorLead} {payload : List UInt8} {v : VectorPrefix}
    (h : lead.read? payload = some v) :
    ExtendedPrefix.Spelled (some (.vector v)) (lead.byte :: payload) := by
  unfold VectorLead.read? at h
  split at h
  · cases h
    exact .vex2 _
  · exact .vex3 h
  · exact .xop h
  · exact .evex h
  · cases h

namespace VectorPrefix

theorem ofVector_ok {v : VectorPrefix} (hmap : v.map ≠ .primary)
    (hxop : (v.kind == .xop) = v.map.isXop) (hsize : v.vectorSize = .v512 → v.kind = .evex) :
    ∃ d, VexDescriptor.ofVector v = .ok d := by
  refine ⟨_, Checked.make_of_fault (VexFields.fault?_eq_none_iff.2 ⟨hmap, hxop, fun h => ?_⟩)⟩
  exact hsize (Option.some.inj h)

theorem map_of_ofVexSelect? {n : UInt8} {map : OpcodeMap}
    (h : OpcodeMap.ofVexSelect? n = some map) : map ≠ .primary ∧ map.isXop = false := by
  unfold OpcodeMap.ofVexSelect? at h
  grind

theorem map_of_ofXopSelect? {n : UInt8} {map : OpcodeMap}
    (h : OpcodeMap.ofXopSelect? n = some map) : map ≠ .primary ∧ map.isXop = true := by
  unfold OpcodeMap.ofXopSelect? at h
  grind

theorem sizeOfBit_ne (b : UInt8) : sizeOfBit b ≠ .v512 := by
  unfold sizeOfBit
  split <;> decide

/-- What can be read as a vector prefix has the fields of a descriptor. -/
theorem ofVector_of_spelled {v : VectorPrefix} {bytes : List UInt8}
    (h : ExtendedPrefix.Spelled (some (.vector v)) bytes) :
    ∃ d, VexDescriptor.ofVector v = .ok d := by
  -- each form brings a map of its own; only EVEX reaches 512 bits
  cases h with
  | vex2 b => exact ofVector_ok (by simp [ofVex2]) rfl (fun hs => absurd hs (sizeOfBit_ne b))
  | @vex3 b₁ b₂ _ h =>
    obtain ⟨map, hm, rfl⟩ := Option.map_eq_some_iff.1 h
    obtain ⟨hp, hx⟩ := map_of_ofVexSelect? hm
    exact ofVector_ok hp hx.symm (fun hs => absurd hs (sizeOfBit_ne b₂))
  | @xop b₁ b₂ _ h =>
    obtain ⟨map, hm, rfl⟩ := Option.map_eq_some_iff.1 h
    obtain ⟨hp, hx⟩ := map_of_ofXopSelect? hm
    exact ofVector_ok hp hx.symm (fun hs => absurd hs (sizeOfBit_ne b₂))
  | evex h =>
    unfold ofEvex? at h
    split at h
    · cases h
    · split at h
      · rename_i map size hm _
        cases h
        obtain ⟨hp, hx⟩ := map_of_ofVexSelect? hm
        exact ofVector_ok hp hx.symm (fun _ => rfl)
      · cases h

end VectorPrefix

namespace PrefixState

variable {available offset n k : Nat} {mode : Mode} {legacy : PrefixList} {rest : List UInt8}
  {s : PrefixState}

/-- The escape bytes that a state stands for. A vector prefix holds the map itself. -/
def escapeBytes (s : PrefixState) : List UInt8 :=
  if s.vector?.isSome then [] else s.map.escapeBytes

/-- The states that are ever read. -/
structure WellFormed (s : PrefixState) : Prop where
  rex : s.rex? ≠ none → s.mode = .x64
  vector : ∀ v, s.vector? = some v → s.map = v.map ∧
    (∃ d, VexDescriptor.ofVector v = .ok d) ∧
    ∀ p ∈ s.legacy.toList, p ∉ [.lock, .repne, .rep, .operandSize]
  map : s.vector? = none → s.map ∈ [.primary, .escape0F, .escape0F38, .escape0F3A]

theorem Reads.size_le (h : Reads mode legacy rest s k) : k ≤ rest.length ∧ k ≤ 4 := by
  cases h with
  | @plain b rest =>
    have hl := OpcodeMap.leading_size_le (b :: rest)
    have ht := OpcodeMap.leading_size_le_two (b :: rest)
    omega
  | @rex b c rest =>
    have hl := OpcodeMap.leading_size_le (c :: rest)
    have ht := OpcodeMap.leading_size_le_two (c :: rest)
    rw [List.length_cons]
    omega
  | @vector lead b rest v _ _ hl _ =>
    have hp : lead.payloadSize ≤ 3 := by cases lead <;> decide
    rw [List.length_cons]
    omega

theorem Reads.take (h : Reads mode legacy rest s k) :
    ∃ between, ExtendedPrefix.Spelled s.extended between ∧
      rest.take k = between ++ s.escapeBytes := by
  cases h with
  | @plain b rest => exact ⟨[], .absent, OpcodeMap.take_leading (b :: rest)⟩
  | @rex b c rest _ hb =>
    have hspelled := ExtendedPrefix.Spelled.rex (.ofByte b)
    rw [Rex.toByte_ofByte hb] at hspelled
    refine ⟨[b], hspelled, ?_⟩
    rw [Nat.add_comm, List.take_succ_cons, OpcodeMap.take_leading]
    rfl
  | @vector lead b rest v _ _ _ hv =>
    refine ⟨lead.byte :: (b :: rest).take lead.payloadSize, VectorLead.spelled_of_read? hv, ?_⟩
    rw [Nat.add_comm, List.take_succ_cons]
    exact (List.append_nil _).symm

theorem Reads.wellFormed (h : Reads mode legacy rest s k) : s.WellFormed := by
  cases h with
  | @plain b rest =>
    exact ⟨fun h => absurd rfl h, fun _ h => (nomatch h), fun _ => OpcodeMap.leading_mem _⟩
  | rex hm =>
    exact ⟨fun _ => (Mode.isLong_iff _).1 hm, fun _ h => (nomatch h),
      fun _ => OpcodeMap.leading_mem _⟩
  | vector _ hd _ hv =>
    refine ⟨fun h => absurd rfl h, fun v h => ?_, fun h => (nomatch h)⟩
    cases h
    exact ⟨rfl, VectorPrefix.ofVector_of_spelled (VectorLead.spelled_of_read? hv), hd⟩

/-- The bytes that were read are those of the state, and the state is well-formed. -/
theorem read_lossless {bytes : List UInt8} (h : read bytes mode = .ok (s, n)) :
    n ≤ bytes.length ∧ n ≤ 11 ∧ s.mode = mode ∧ s.WellFormed ∧
      (∃ between, ExtendedPrefix.Spelled s.extended between ∧
        bytes.take n = s.legacy.toList.map LegacyPrefix.byte ++ between ++ s.escapeBytes) ∧
      ∃ b, bytes[s.legacy.toList.length]? = some b ∧ LegacyPrefix.ofByte? b = none := by
  obtain ⟨hl, k, rfl, hr⟩ := reads_of_read h
  have hc : s.legacy.toList.length ≤ 7 := s.legacy.length_toList_le
  have hle := LegacyPrefix.leading_length_le bytes
  obtain ⟨hk, hk'⟩ := hr.size_le
  rw [List.length_drop] at hk
  obtain ⟨between, hs, ht⟩ := hr.take
  have hlt : s.legacy.toList.length < bytes.length := by
    refine Nat.lt_of_not_le fun hn => ?_
    rw [List.drop_eq_nil_iff.2 hn] at hr
    cases hr
  obtain ⟨b, hnext⟩ : ∃ b, bytes[s.legacy.toList.length]? = some b :=
    ⟨_, List.getElem?_eq_getElem hlt⟩
  refine ⟨by omega, by omega, hr.mode_legacy.1, hr.wellFormed, ⟨between, hs, ?_⟩, b, hnext, ?_⟩
  · rw [List.take_add, ht, hl, LegacyPrefix.take_leading, List.append_assoc]
  · rw [hl] at hnext
    exact LegacyPrefix.ofByte?_behind_leading hnext

theorem read_lossless_evex :
    ∃ s between, read [0x65, 0x67, 0x62, 0xF1, 0x7C, 0x48, 0x58, 0xC1] .x64 = .ok (s, 6) ∧
      s.kind? = some .evex ∧ s.vectorSize? = some .v512 ∧ s.WellFormed ∧
      ExtendedPrefix.Spelled s.extended between ∧
      [0x65, 0x67, 0x62, 0xF1, 0x7C, 0x48] = [0x65, 0x67] ++ between := by
  obtain ⟨s, hs, hl, hk, hv⟩ : ∃ s, read [0x65, 0x67, 0x62, 0xF1, 0x7C, 0x48, 0x58, 0xC1] .x64 =
      .ok (s, 6) ∧ s.legacy.toList = [.gs, .addressSize] ∧ s.kind? = some .evex ∧
      s.vectorSize? = some .v512 := ⟨_, rfl, by decide, by decide, by decide⟩
  obtain ⟨-, -, -, hw, ⟨between, hb, ht⟩, -⟩ := read_lossless hs
  have he : s.escapeBytes = [] := by
    unfold escapeBytes
    cases hvec : s.vector? with
    | none => simp [kind?, hvec] at hk
    | some v => rfl
  rw [hl, he, List.append_nil] at ht
  exact ⟨s, between, hs, hk, hv, hw, hb, ht⟩

end PrefixState
end X86Encoding
