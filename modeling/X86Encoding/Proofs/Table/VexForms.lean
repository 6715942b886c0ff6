import X86Encoding.Proofs.Prefix.Writing
import X86Encoding.Proofs.Table.Facts

/-!
The two forms of VEX. What the form of two bytes says, the form of three bytes says with one
byte more, and both are read as the same state. So decoding comes to the same answer one byte
further on, as long as there is room for that byte.
-/

set_option autoImplicit false

namespace X86Encoding

namespace DecodePoint

/-- The same state is read in front of the same bytes, from one byte more. -/
structure OneBehind (p q : DecodePoint) : Prop extends p.Agrees q where
  prefixes : p.prefixes = q.prefixes
  opcodeEnd : q.opcodeEnd = p.opcodeEnd + 1

variable {p q : DecodePoint} (h : p.OneBehind q)
include h

theorem OneBehind.length_bytes : q.bytes.length = p.bytes.length + 1 := by
  have hend := h.opcodeEnd
  have hlen := h.length
  omega

theorem OneBehind.lengthOf (d : OpcodeDescriptor) : q.lengthOf d = p.lengthOf d + 1 := by
  have hend := h.opcodeEnd
  obtain ⟨k, hp, hq⟩ := h.toAgrees.lengthOf d
  omega

theorem OneBehind.missingEnd : q.missingEnd = p.missingEnd + 1 := by
  have hend := h.opcodeEnd
  unfold DecodePoint.missingEnd
  rw [h.rest, h.addressSize]
  cases q.bytes.drop q.opcodeEnd with
  | nil => exact congrArg (· + 1) hend
  | cons b rest =>
    dsimp only
    cases (ModRM.ofByte b).addressingLength? q.prefixes.addressSize rest with
    | none => exact congrArg (· + 2) hend
    | some n =>
      dsimp only
      omega

theorem OneBehind.instruction (e : TableEntry) :
    q.instruction e = { p.instruction e with length := (p.instruction e).length + 1 } := by
  simp only [DecodePoint.instruction, h.modRMOf, h.imm8Of, h.mainByte, h.prefixes, h.lengthOf]

end DecodePoint

namespace OpcodeTable

open DecodePoint

variable {t : OpcodeTable} {p q : DecodePoint}

/-- An answer and the answer one byte further on. Where a demand for bytes is at the greatest
length, that byte may settle that there is no room for them. -/
inductive Later : Except DecodeError Instruction → Except DecodeError Instruction → Prop where
  | decoded {d : Instruction} : d.length ≤ 14 →
      Later (.ok d) (.ok { d with length := d.length + 1 })
  | full {d : Instruction} : d.length = 15 → Later (.ok d) (.error (.tooLong 16))
  | truncated (needed available : Nat) :
      Later (.error (.truncated needed available))
        (.error (.truncated (needed + 1) (available + 1)))
  | cutOff (available : Nat) : Later (.error (.truncated 15 available)) (.error (.tooLong 16))
  | tooLong (n : Nat) : Later (.error (.tooLong n)) (.error (.tooLong (n + 1)))
  | ambiguous (names : List Text) :
      Later (.error (.ambiguous names)) (.error (.ambiguous names))
  | noMatch (seen seen' : List UInt8) :
      Later (.error (.noMatch seen)) (.error (.noMatch seen'))

theorem verdict_later (h : p.OneBehind q) :
    Later (verdict p (t.trials p)) (verdict q (t.trials q)) := by
  have hmatch : t.matching p = t.matching q := matching_congr h.toAgrees
  have hbytes := h.length_bytes
  have hroom : maxLength = 15 := rfl
  have hsame : ∀ {first : TableEntry},
      (∀ e ∈ t.matching p, p.lengthOf e.opcode = p.lengthOf first.opcode) →
      ∀ e ∈ t.matching q, q.lengthOf e.opcode = q.lengthOf first.opcode := by
    intro first hall e he
    rw [h.lengthOf, h.lengthOf, hall e (hmatch ▸ he)]
  have ho := t.outcome_verdict p
  generalize verdict p (t.trials p) = r at ho
  cases ho with
  | @decoded first hh hall hmax hlen =>
    have hl := h.lengthOf first.opcode
    have hh' : (t.matching q).head? = some first := hmatch ▸ hh
    by_cases hfull : p.lengthOf first.opcode = 15
    · rw [verdict_of_outcome (.tooLong hh' (hsame hall) (by omega)), hl, hfull]
      exact .full hfull
    · rw [verdict_of_outcome (.decoded hh' (hsame hall) (by omega) (by omega)), h.instruction]
      exact .decoded (show p.lengthOf first.opcode ≤ 14 by omega)
  | @cutShort first hh hall hmax hlen =>
    have hl := h.lengthOf first.opcode
    have hh' : (t.matching q).head? = some first := hmatch ▸ hh
    by_cases hfull : p.lengthOf first.opcode = 15
    · rw [verdict_of_outcome (.tooLong hh' (hsame hall) (by omega)), hl, hfull]
      exact .cutOff _
    · rw [verdict_of_outcome (.cutShort hh' (hsame hall) (by omega) (by omega)), hl, hbytes]
      exact .truncated ..
  | @tooLong first hh hall hmax =>
    have hl := h.lengthOf first.opcode
    have hh' : (t.matching q).head? = some first := hmatch ▸ hh
    rw [verdict_of_outcome (.tooLong hh' (hsame hall) (by omega)), hl]
    exact .tooLong _
  | @ambiguous e e' he he' hne =>
    have hne' : q.lengthOf e.opcode ≠ q.lengthOf e'.opcode := by
      rw [h.lengthOf, h.lengthOf]
      omega
    rw [verdict_of_outcome (.ambiguous (hmatch ▸ he) (hmatch ▸ he') hne'), hmatch]
    exact .ambiguous _
  | unread hm he =>
    rw [unreadable_congr h.toAgrees] at he
    rw [verdict_of_outcome (.unread (hmatch ▸ hm) he), h.missingEnd, hbytes]
    exact .truncated ..
  | noMatch hm hu =>
    rw [unreadable_congr h.toAgrees] at hu
    rw [verdict_of_outcome (.noMatch (hmatch ▸ hm) hu)]
    exact .noMatch ..

theorem decode_later {mode : Mode} {start start' rest : List UInt8} {s : PrefixState}
    (hr : PrefixState.read (start ++ rest) mode = .ok (s, start.length))
    (hr' : PrefixState.read (start' ++ rest) mode = .ok (s, start'.length))
    (hl : start'.length = start.length + 1) :
    Later (t.decode (start ++ rest) mode) (t.decode (start' ++ rest) mode) := by
  cases rest with
  | nil =>
    -- without a main byte both answers are demands for one
    rw [List.append_nil] at hr hr' ⊢
    rw [List.append_nil, t.decode_of_read_all hr, t.decode_of_read_all hr', hl]
    exact .truncated ..
  | cons b rest =>
    rw [t.decode_eq_of_read hr, t.decode_eq_of_read hr']
    refine verdict_later ⟨agrees_of_facts start start' b rest rfl, rfl, ?_⟩
    simp only [opcodeEnd, hl]

end OpcodeTable

/-- The inverted bits that the short form leaves out are set, the map is 1 and W is 0. -/
theorem VectorPrefix.ofVex3?_eq_ofVex2 (b : UInt8) :
    ofVex3? (b &&& 0x80 ||| 0x61) (b &&& 0x7F) = some (ofVex2 b) :=
  byteCases b b.toNat_lt (by decide +kernel)

namespace LegacyPrefix

def IsKept (b : UInt8) : Prop :=
  (ofByte? b).isSome = true ∧ b ∉ ([0xF0, 0xF2, 0xF3, 0x66] : List UInt8)

instance (b : UInt8) : Decidable (IsKept b) := inferInstanceAs (Decidable (_ ∧ _))

theorem exists_list_of_isKept {ps : List UInt8} (h : ∀ b ∈ ps, IsKept b) :
    ∃ l : List LegacyPrefix, l.map byte = ps ∧ ∀ p ∈ l, p ∉ PrefixState.displaced := by
  induction ps with
  | nil => exact ⟨[], rfl, by simp⟩
  | cons b ps ih =>
    obtain ⟨l, rfl, hl⟩ := ih fun c hc => h c (List.mem_cons_of_mem _ hc)
    obtain ⟨hb, hkept⟩ := h b List.mem_cons_self
    obtain ⟨p, hp⟩ := Option.isSome_iff_exists.1 hb
    rw [← byte_of_ofByte? hp] at hkept ⊢
    have hfree : p ∉ PrefixState.displaced := mt (PrefixState.mem_displaced_iff p).1 hkept
    exact ⟨p :: l, rfl, List.forall_mem_cons.2 ⟨hfree, hl⟩⟩

end LegacyPrefix

namespace PrefixState

/-- Both forms are read as one state, in long mode and where the lead byte is no opcode. -/
theorem exists_read_forms {mode : Mode} {ps : List UInt8} {b : UInt8} (hlen : ps.length ≤ 7)
    (hps : ∀ c ∈ ps, LegacyPrefix.IsKept c) (hmode : mode = .x64 ∨ 0xC0 ≤ b)
    (rest : List UInt8) :
    ∃ s, read (ps ++ [0xC5, b] ++ rest) mode = .ok (s, ps.length + 2) ∧
      read (ps ++ [0xC4, b &&& 0x80 ||| 0x61, b &&& 0x7F] ++ rest) mode =
        .ok (s, ps.length + 3) := by
  obtain ⟨l, rfl, hl⟩ := LegacyPrefix.exists_list_of_isKept hps
  rw [List.length_map] at hlen ⊢
  obtain ⟨legacy, -, rfl⟩ := PrefixList.ofList_of_le hlen
  have hset : 0xC0 ≤ b → 0xC0 ≤ b &&& 0x80 ||| 0x61 :=
    byteCases b b.toNat_lt (by decide +kernel)
  have hshort : VectorLead.starts .vex2 mode b = true := by
    rcases hmode with rfl | hb
    · rfl
    · simp only [VectorLead.starts, hb, decide_true, Bool.or_true]
  have hlong : VectorLead.starts .vex3 mode (b &&& 0x80 ||| 0x61) = true := by
    rcases hmode with rfl | hb
    · rfl
    · simp only [VectorLead.starts, hset hb, decide_true, Bool.or_true]
  refine ⟨⟨mode, legacy, some (.vector (.ofVex2 b)), .escape0F⟩, ?_, ?_⟩
  · rw [List.append_assoc]
    exact read_of_reads (by decide)
      (Reads.vector hshort hl (by simp [VectorLead.payloadSize]) rfl)
  · rw [List.append_assoc]
    exact read_of_reads (by decide)
      (Reads.vector hlong hl (by simp [VectorLead.payloadSize])
        (VectorPrefix.ofVex3?_eq_ofVex2 b))

end PrefixState

namespace OpcodeTable

section Answers

variable {r r' : Except DecodeError Instruction} (h : Later r r')
include h

theorem Later.ok_iff (d' : Instruction) :
    r' = .ok d' ↔ ∃ d, r = .ok d ∧ d.length ≤ 14 ∧ d' = { d with length := d.length + 1 } := by
  cases h with
  | @decoded d hd =>
    constructor
    · rintro ⟨⟩
      exact ⟨d, rfl, hd, rfl⟩
    · rintro ⟨_, ⟨⟩, -, rfl⟩
      rfl
  | @full d hd =>
    refine ⟨fun h => (nomatch h), ?_⟩
    rintro ⟨_, ⟨⟩, hle, -⟩
    omega
  | _ => exact ⟨fun h => (nomatch h), fun ⟨_, h, _⟩ => (nomatch h)⟩

theorem Later.tooLong_of_full {d : Instruction} (hd : r = .ok d) (hl : d.length = 15) :
    r' = .error (.tooLong 16) := by
  cases h with
  | decoded hle =>
    cases hd
    omega
  | full => rfl
  | _ => cases hd

theorem Later.noMatch_iff :
    (∃ seen, r = .error (.noMatch seen)) ↔ ∃ seen, r' = .error (.noMatch seen) := by
  cases h <;> simp

theorem Later.ambiguous_iff (names : List Text) :
    r = .error (.ambiguous names) ↔ r' = .error (.ambiguous names) := by
  cases h <;> simp

theorem Later.truncated_iff {needed : Nat} (available : Nat) (hn : needed ≤ 14) :
    r = .error (.truncated needed available) ↔
      r' = .error (.truncated (needed + 1) (available + 1)) := by
  cases h with
  | cutOff a =>
    refine ⟨fun h => ?_, fun h => (nomatch h)⟩
    cases h
    omega
  | _ => simp

end Answers

/-- The form of two bytes and the form of three bytes decode to the same instruction, with the
same prefixes and one byte more, save that the longest instruction has no room for it; and they
fail alike. -/
theorem decode_vex_forms (t : OpcodeTable) {mode : Mode} {ps : List UInt8} {b : UInt8}
    (rest : List UInt8) (hlen : ps.length ≤ 7)
    (hps : ∀ c ∈ ps, (LegacyPrefix.ofByte? c).isSome = true ∧
      c ∉ ([0xF0, 0xF2, 0xF3, 0x66] : List UInt8))
    (hmode : mode = .x64 ∨ 0xC0 ≤ b) :
    let short := ps ++ [0xC5, b] ++ rest
    let long := ps ++ [0xC4, b &&& 0x80 ||| 0x61, b &&& 0x7F] ++ rest
    (∀ d', t.decode long mode = .ok d' ↔ ∃ d, t.decode short mode = .ok d ∧ d.length ≤ 14 ∧
      d' = { d with length := d.length + 1 }) ∧
    (∀ d, t.decode short mode = .ok d → d.length = 15 →
      t.decode long mode = .error (.tooLong 16)) ∧
    ((∃ seen, t.decode short mode = .error (.noMatch seen)) ↔
      ∃ seen, t.decode long mode = .error (.noMatch seen)) ∧
    (∀ names, t.decode short mode = .error (.ambiguous names) ↔
      t.decode long mode = .error (.ambiguous names)) ∧
    ∀ needed available, needed ≤ 14 →
      (t.decode short mode = .error (.truncated needed available) ↔
        t.decode long mode = .error (.truncated (needed + 1) (available + 1))) := by
  intro short long
  obtain ⟨s, hshort, hlong⟩ := PrefixState.exists_read_forms hlen hps hmode rest
  have h : Later (t.decode short mode) (t.decode long mode) :=
    decode_later (by simpa using hshort) (by simpa using hlong) (by simp)
  exact ⟨h.ok_iff, fun d hd hl => h.tooLong_of_full hd hl, h.noMatch_iff, h.ambiguous_iff,
    fun _ available hn => h.truncated_iff available hn⟩

/-- `vex.128.0f 10 /r`. -/
def moveTable : OpcodeTable :=
  ⟨[⟨"vmovups".toList, ⟨{ OpcodeFields.initial with
      kind := some .vex, vectorSize := some .v128, simd := some .np, map := .escape0F,
      mainByte := 0x10, form := .any }, by decide⟩⟩]⟩

theorem decode_vex_forms_move :
    (∃ d d', moveTable.decode [0x64, 0xC5, 0x78, 0x10, 0xC1] .x64 = .ok d ∧
      moveTable.decode [0x64, 0xC4, 0x61, 0x78, 0x10, 0xC1] .x64 = .ok d' ∧
      d'.prefixes = d.prefixes ∧ d'.modRM = d.modRM ∧ d.length = 5 ∧ d'.length = 6) ∧
    moveTable.decode [0x64, 0xC4, 0x61, 0x78, 0x10] .x64 = .error (.truncated 6 5) := by
  have hps : ∀ c ∈ ([0x64] : List UInt8), (LegacyPrefix.ofByte? c).isSome = true ∧
      c ∉ ([0xF0, 0xF2, 0xF3, 0x66] : List UInt8) := List.forall_mem_singleton.2 (by decide)
  have hwhole := decode_vex_forms moveTable (b := 0x78) [0x10, 0xC1] (by decide) hps (.inl rfl)
  have hcut := decode_vex_forms moveTable (b := 0x78) [0x10] (by decide) hps (.inl rfl)
  obtain ⟨d, hd, hl⟩ : ∃ d, moveTable.decode [0x64, 0xC5, 0x78, 0x10, 0xC1] .x64 = .ok d ∧
      d.length = 5 := ⟨_, rfl, by decide⟩
  have hd' := (hwhole.1 _).2 ⟨d, hd, by omega, rfl⟩
  refine ⟨⟨d, _, hd, hd', rfl, rfl, hl, congrArg (· + 1) hl⟩, ?_⟩
  exact (hcut.2.2.2.2 5 4 (by decide)).1 rfl

end OpcodeTable
end X86Encoding
