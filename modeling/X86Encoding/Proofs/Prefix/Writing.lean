import X86Encoding.Proofs.Prefix.Lossless

set_option autoImplicit false

namespace X86Encoding

namespace LegacyPrefix

@[simp] theorem leading_map_byte_append (ps : List LegacyPrefix) (bytes : List UInt8) :
    leading (ps.map byte ++ bytes) = ps ++ leading bytes := by
  induction ps with
  | nil => rfl
  | cons p ps ih => simp [leading, ih]

theorem leading_map_byte (ps : List LegacyPrefix) {b : UInt8} (rest : List UInt8)
    (hb : ofByte? b = none) : leading (ps.map byte ++ b :: rest) = ps := by
  have hrest : leading (b :: rest) = [] := by simp [leading, hb]
  rw [leading_map_byte_append, hrest, List.append_nil]

end LegacyPrefix

namespace VectorLead

@[simp] theorem ofByte?_byte (lead : VectorLead) : ofByte? lead.byte = some lead := by
  cases lead <;> rfl

@[simp] theorem isByte_byte (lead : VectorLead) : Rex.isByte lead.byte = false := by
  cases lead <;> rfl

@[simp] theorem legacy_ofByte?_byte (lead : VectorLead) :
    LegacyPrefix.ofByte? lead.byte = none := by
  cases lead <;> decide

theorem ne_escape_of_ofByte? {b : UInt8} {lead : VectorLead} (h : ofByte? b = some lead) :
    b ≠ 0x0F := by
  rw [← byte_of_ofByte? h]
  cases lead <;> decide

end VectorLead

@[simp] theorem Rex.isByte_toByte (p : Rex) : isByte p.toByte = true := by
  obtain ⟨w, r, x, b⟩ := p
  cases w <;> cases r <;> cases x <;> cases b <;> decide

@[simp] theorem Rex.legacy_ofByte?_toByte (p : Rex) : LegacyPrefix.ofByte? p.toByte = none := by
  obtain ⟨w, r, x, b⟩ := p
  cases w <;> cases r <;> cases x <;> cases b <;> decide

namespace OpcodeMap

def nopBytes (map : OpcodeMap) : List UInt8 := map.escapeBytes ++ [0x90]

theorem nopBytes_eq_cons (map : OpcodeMap) : ∃ b rest, map.nopBytes = b :: rest ∧
    LegacyPrefix.ofByte? b = none ∧ Rex.isByte b = false ∧ VectorLead.ofByte? b = none := by
  cases map <;> exact ⟨_, _, rfl, by decide, by decide, by decide⟩

theorem leading_nopBytes {map : OpcodeMap} (h : map.isXop = false) :
    leading map.nopBytes = (map, map.escapeBytes.length) := by
  cases map <;> first | rfl | cases h

end OpcodeMap

namespace VectorPrefix

def plain (kind : VexKind) (size : VectorSize) (simd : SimdPrefix) (map : OpcodeMap)
    (w : Bool) : VectorPrefix :=
  ⟨kind, size, simd, map, w, false, false, false, 0⟩

def mapByte (map : OpcodeMap) : UInt8 :=
  0xE0 + .ofNat (if map.isXop then map.index + 4 else map.index)

/-- W, the inverted register, bit 2 and the SIMD prefix. -/
def flagsByte (w bit : Bool) (simd : SimdPrefix) : UInt8 :=
  (if w then 0xF8 else 0x78) + (if bit then 4 else 0) + .ofNat simd.pp

theorem flagsByte_fields (w bit : Bool) (simd : SimdPrefix) :
    isSet (flagsByte w bit simd) 0x80 = w ∧ isSet (flagsByte w bit simd) 0x04 = bit ∧
      SimdPrefix.ofPP (flagsByte w bit simd).toNat = simd ∧
      vvvvOf (flagsByte w bit simd) = 0 := by
  cases w <;> cases bit <;> cases simd <;> decide

theorem mapByte_fields (map : OpcodeMap) : isClear (mapByte map) 0x80 = false ∧
    isClear (mapByte map) 0x40 = false ∧ isClear (mapByte map) 0x20 = false ∧
    0xC0 ≤ mapByte map := by
  cases map <;> decide

@[simp] theorem ofThree_plain (kind : VexKind) (map : OpcodeMap) (w wide : Bool)
    (simd : SimdPrefix) : ofThree kind map (mapByte map) (flagsByte w wide simd) =
      plain kind (if wide then .v256 else .v128) simd map w := by
  obtain ⟨hw, hsize, hsimd, hv⟩ := flagsByte_fields w wide simd
  obtain ⟨hr, hx, hb, -⟩ := mapByte_fields map
  simp only [ofThree, plain, sizeOfBit, hw, hsize, hsimd, hv, hr, hx, hb]

theorem ofEvex?_plain {map : OpcodeMap} (hp : map ≠ .primary) (hx : map.isXop = false)
    (w : Bool) (simd : SimdPrefix) (size : VectorSize) :
    ofEvex? (mapByte map) (flagsByte w true simd) (.ofNat (32 * size.l)) =
      some (plain .evex size simd map w) := by
  obtain ⟨hw, hbit, hsimd, hv⟩ := flagsByte_fields w true simd
  obtain ⟨hr, hxb, hb, -⟩ := mapByte_fields map
  have hclear : isClear (flagsByte w true simd) 0x04 = false := by
    simpa [isClear, isSet] using hbit
  have hmap : OpcodeMap.ofVexSelect? (mapByte map &&& 0x07) = some map := by
    cases map <;> first | rfl | exact absurd rfl hp | cases hx
  have hsize : VectorSize.ofL? (UInt8.ofNat (32 * size.l) >>> 5 &&& 3).toNat = some size := by
    cases size <;> rfl
  simp only [ofEvex?, plain, hclear, hmap, hsize, hw, hsimd, hv, hr, hxb, hb,
    Bool.false_eq_true, if_false]

theorem size_of_wide {size : VectorSize} (h : size ≠ .v512) :
    (if size = .v256 then .v256 else .v128) = size := by
  cases size <;> first | rfl | exact absurd rfl h

/-- The fields of a descriptor, with no register, have a lead byte and a payload. -/
theorem exists_payload {kind : VexKind} {size : VectorSize} {map : OpcodeMap} (simd : SimdPrefix)
    (w : Bool) (hp : map ≠ .primary) (hx : (kind == .xop) = map.isXop)
    (hl : size = .v512 → kind = .evex) :
    ∃ (lead : VectorLead) (rest : List UInt8),
      (mapByte map :: rest).length = lead.payloadSize ∧
      lead.read? (mapByte map :: rest) = some (plain kind size simd map w) ∧
      ∀ mode, lead.starts mode (mapByte map) = true := by
  -- behind an inverted bit that is set, no lead byte is taken for LES, LDS or BOUND; VEX has its
  -- three-byte form, which alone reaches all maps
  have hregister := (mapByte_fields map).2.2.2
  cases kind with
  | evex =>
    refine ⟨.evex, [flagsByte w true simd, .ofNat (32 * size.l)], rfl,
      ofEvex?_plain hp hx.symm w simd size, fun mode => ?_⟩
    simp only [VectorLead.starts, hregister, decide_true, Bool.or_true]
  | vex =>
    have hwide := size_of_wide fun h => nomatch hl h
    have hmap : OpcodeMap.ofVexSelect? (mapByte map &&& 0x1F) = some map := by
      cases map <;> first | rfl | exact absurd rfl hp | cases hx
    refine ⟨.vex3, [flagsByte w (size == .v256) simd], rfl, ?_, fun mode => ?_⟩
    · simp [VectorLead.read?, ofVex3?, hmap, hwide]
    · simp only [VectorLead.starts, hregister, decide_true, Bool.or_true]
  | xop =>
    have hwide := size_of_wide fun h => nomatch hl h
    have hmap : OpcodeMap.ofXopSelect? (mapByte map &&& 0x1F) = some map := by
      cases map <;> first | rfl | cases hx
    refine ⟨.xop, [flagsByte w (size == .v256) simd], rfl, ?_, fun mode => ?_⟩
    · simp [VectorLead.read?, ofXop?, hmap, hwide]
    · cases map <;> first | rfl | cases hx

end VectorPrefix

namespace PrefixState

variable {mode : Mode} {legacy : PrefixList} {rest : List UInt8} {s : PrefixState} {k : Nat}

theorem mem_displaced_iff (p : LegacyPrefix) :
    p ∈ displaced ↔ p.byte ∈ ([0xF0, 0xF2, 0xF3, 0x66] : List UInt8) := by
  cases p <;> decide

theorem Reads.readAfterLegacy_eq (h : Reads mode legacy rest s k) (available offset : Nat) :
    readAfterLegacy available mode legacy offset rest = .ok (s, offset + k) := by
  cases h with
  | @plain b rest hrex hlead =>
    simp only [readAfterLegacy, hrex, Bool.false_eq_true, if_false]
    cases hb : VectorLead.ofByte? b with
    | none => exact readEscape_eq ..
    | some lead =>
      obtain ⟨c, tail, rfl, hs⟩ := hlead lead hb
      rw [OpcodeMap.leading_of_ne _ (VectorLead.ne_escape_of_ofByte? hb)]
      simp only [readAfterLead, hs, Bool.false_eq_true, if_false, Nat.add_zero]
  | @rex b c rest hmode hb hc hc' =>
    simp only [readAfterLegacy, hmode, hb, Bool.and_self, if_true, readAfterRex, hc, hc',
      Option.isSome_none, Bool.or_self, Bool.false_eq_true, if_false, readEscape_eq,
      Nat.add_assoc]
  | @vector lead b rest v hs hd hl hv =>
    have hd' : legacy.toList.any displaced.contains = false := by simpa using hd
    simpa [readAfterLegacy, readAfterLead, hs, hd', hv, Nat.add_assoc] using hl

/-- The converse of `reads_of_read`, where the byte behind the legacy prefixes is none. -/
theorem read_of_reads {b : UInt8} (hb : LegacyPrefix.ofByte? b = none)
    (h : Reads mode legacy (b :: rest) s k) :
    read (legacy.toList.map LegacyPrefix.byte ++ b :: rest) mode =
      .ok (s, legacy.toList.length + k) := by
  obtain ⟨l, hl, he⟩ := PrefixList.ofList_of_le legacy.length_toList_le
  obtain rfl : l = legacy := PrefixList.ext_toList he
  have hdrop : (l.toList.map LegacyPrefix.byte ++ b :: rest).drop l.toList.length = b :: rest :=
    List.drop_left' (List.length_map _)
  simp only [read, LegacyPrefix.leading_map_byte _ _ hb, hl, hdrop, h.readAfterLegacy_eq]

def IsRead (s : PrefixState) : Prop := ∃ bytes n, read bytes s.mode = .ok (s, n)

variable (mode legacy) {map : OpcodeMap}

theorem isRead_escape (hmap : map.isXop = false) : IsRead ⟨mode, legacy, none, map⟩ := by
  obtain ⟨b, rest, hbytes, hb, hrex, hlead⟩ := map.nopBytes_eq_cons
  have hleading := OpcodeMap.leading_nopBytes hmap
  rw [hbytes] at hleading
  have hreads : Reads mode legacy (b :: rest) ⟨mode, legacy, none, _⟩ _ :=
    .plain (by rw [hrex, Bool.and_false]) (fun lead h => by rw [hlead] at h; cases h)
  rw [hleading] at hreads
  exact ⟨_, _, read_of_reads hb hreads⟩

theorem isRead_rex (p : Rex) (hmap : map.isXop = false) :
    IsRead ⟨.x64, legacy, some (.rex p), map⟩ := by
  obtain ⟨b, rest, hbytes, hb, hrex, -⟩ := map.nopBytes_eq_cons
  have hleading := OpcodeMap.leading_nopBytes hmap
  rw [hbytes] at hleading
  have hreads : Reads .x64 legacy (p.toByte :: b :: rest) ⟨.x64, legacy, _, _⟩ _ :=
    .rex rfl p.isByte_toByte hb hrex
  rw [hleading, Rex.ofByte_toByte] at hreads
  exact ⟨_, _, read_of_reads p.legacy_ofByte?_toByte hreads⟩

theorem isRead_vector {kind : VexKind} {size : VectorSize} (simd : SimdPrefix) (w : Bool)
    (hd : ∀ p ∈ legacy.toList, p ∉ displaced) (hp : map ≠ .primary)
    (hx : (kind == .xop) = map.isXop) (hl : size = .v512 → kind = .evex) :
    IsRead ⟨mode, legacy, some (.vector (.plain kind size simd map w)), map⟩ := by
  obtain ⟨lead, rest, hlen, hread, hstarts⟩ := VectorPrefix.exists_payload simd w hp hx hl
  rw [← List.take_of_length_le (Nat.le_of_eq hlen)] at hread
  exact ⟨_, _, read_of_reads lead.legacy_ofByte?_byte
    (.vector (hstarts mode) hd (Nat.le_of_eq hlen.symm) hread)⟩

end PrefixState
end X86Encoding
