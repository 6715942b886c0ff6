import X86Encoding.Proofs.Table.Meaning

/-!
What decoding sees of the prefixes: eight facts. Two inputs whose prefixes give the same facts,
in whatever modes, and which go on with the same bytes, are the same instruction, up to the
number of prefix bytes.
-/

set_option autoImplicit false

namespace X86Encoding

structure PrefixFacts where
  isLong : Bool
  addressSize : AddressSize
  operandSize : IntegerSize
  isPromoted : Bool
  kind? : Option VexKind
  vectorSize? : Option VectorSize
  simd : SimdPrefix
  map : OpcodeMap
  deriving DecidableEq, Repr

def PrefixState.facts (s : PrefixState) : PrefixFacts where
  isLong := s.mode.isLong
  addressSize := s.addressSize
  operandSize := s.operandSize
  isPromoted := s.isPromoted
  kind? := s.kind?
  vectorSize? := s.vectorSize?
  simd := s.simd
  map := s.map

/-! ## What the facts leave out -/

namespace LegacyPrefix

/-- Segments and LOCK change no fact. -/
def isSeen (p : LegacyPrefix) : Bool := p.group != .segment && p != .lock

theorem simd?_of_not_isSeen {p : LegacyPrefix} (h : p.isSeen = false) : p.simd? = none := by
  cases p <;> first | rfl | cases h

theorem findSome?_filter_isSeen (ps : List LegacyPrefix) :
    (ps.filter isSeen).findSome? simd? = ps.findSome? simd? := by
  induction ps with
  | nil => rfl
  | cons p ps ih =>
    cases hp : p.isSeen with
    | true => rw [List.filter_cons_of_pos hp, List.findSome?_cons, List.findSome?_cons, ih]
    | false =>
      -- what the filter drops is passed over by the search, too
      rw [List.filter_cons_of_neg (by simp [hp]), List.findSome?_cons, simd?_of_not_isSeen hp, ih]

end LegacyPrefix

def ExtendedPrefix.plain : ExtendedPrefix → ExtendedPrefix
  | .rex p => .rex { p with r := false, x := false, b := false }
  | .vector p => .vector { p with r := false, x := false, b := false, vvvv := 0 }

namespace PrefixState

/-- States that differ in segments, LOCK, the bits that extend registers, and `vvvv` only. -/
structure Alike (s s' : PrefixState) : Prop where
  mode : s.mode = s'.mode
  map : s.map = s'.map
  legacy : s.legacy.toList.filter LegacyPrefix.isSeen =
    s'.legacy.toList.filter LegacyPrefix.isSeen
  extended : s.extended.map ExtendedPrefix.plain = s'.extended.map ExtendedPrefix.plain

variable {s s' : PrefixState}

theorem contains_eq_of_alike (h : Alike s s') {p : LegacyPrefix} (hp : p.isSeen = true) :
    s.legacy.contains p = s'.legacy.contains p := by
  have hmem : ∀ l : PrefixList,
      l.contains p = true ↔ p ∈ l.toList.filter LegacyPrefix.isSeen := by
    intro l
    rw [PrefixList.contains, PrefixList.indexOf?, List.isSome_idxOf?, List.mem_filter]
    simp [hp]
  rw [Bool.eq_iff_iff, hmem, hmem, h.legacy]

theorem simd_legacy_eq_of_alike (h : Alike s s') : s.legacy.simd = s'.legacy.simd := by
  have hseen : ∀ l : PrefixList, l.simd =
      ((l.toList.filter LegacyPrefix.isSeen).reverse.findSome? LegacyPrefix.simd?).getD .np := by
    intro l
    rw [← List.filter_reverse, LegacyPrefix.findSome?_filter_isSeen]
    rfl
  rw [hseen, hseen, h.legacy]

theorem facts_plain (s : PrefixState) :
    ({ s with extended := s.extended.map ExtendedPrefix.plain } : PrefixState).facts = s.facts := by
  obtain ⟨mode, legacy, extended, map⟩ := s
  cases extended with
  | none => rfl
  | some e => cases e <;> rfl

theorem facts_eq_of_alike (h : Alike s s') : s.facts = s'.facts := by
  have ha := contains_eq_of_alike h (p := .addressSize) rfl
  have ho := contains_eq_of_alike h (p := .operandSize) rfl
  rw [← facts_plain s, ← facts_plain s', h.extended]
  simp only [facts, addressSize, operandSize, isPromoted, kind?, vectorSize?, simd, vector?, h.mode,
    h.map, ha, ho, simd_legacy_eq_of_alike h]
  rfl

end PrefixState

/-! ## What an entry sees -/

namespace OpcodeDescriptor

variable {s s' : PrefixState} (d : OpcodeDescriptor)

theorem acceptsMainByte_congr (h : s.facts = s'.facts) (b : UInt8) :
    d.acceptsMainByte s b = d.acceptsMainByte s' b := by
  simp only [PrefixState.facts, PrefixFacts.mk.injEq] at h
  obtain ⟨hl, ha, ho, hp, hk, hv, hs, hm⟩ := h
  simp only [acceptsMainByte, validIn, OperandSizeRule.admits, hl, ha, ho, hp, hk, hv, hs, hm]

theorem accepts_congr (h : s.facts = s'.facts) (b : UInt8) (modRM : Option ModRM)
    (imm8 : Option UInt8) : d.accepts s b modRM imm8 = d.accepts s' b modRM imm8 := by
  simp only [accepts, d.acceptsMainByte_congr h]

end OpcodeDescriptor

namespace DecodePoint

/-- Points that show the same to every entry: the same facts, main byte, and bytes behind it. -/
structure Agrees (p q : DecodePoint) : Prop where
  facts : p.prefixes.facts = q.prefixes.facts
  mainByte : p.mainByte = q.mainByte
  rest : p.bytes.drop p.opcodeEnd = q.bytes.drop q.opcodeEnd
  length : p.bytes.length + q.opcodeEnd = q.bytes.length + p.opcodeEnd

variable {p q : DecodePoint} (h : p.Agrees q) (d : OpcodeDescriptor)

theorem Agrees.symm (h : p.Agrees q) : q.Agrees p :=
  ⟨h.facts.symm, h.mainByte.symm, h.rest.symm, h.length.symm⟩

theorem Agrees.getElem? (h : p.Agrees q) (k : Nat) :
    p.bytes[p.opcodeEnd + k]? = q.bytes[q.opcodeEnd + k]? := by
  rw [← List.getElem?_drop, ← List.getElem?_drop, h.rest]

theorem Agrees.addressSize (h : p.Agrees q) : p.prefixes.addressSize = q.prefixes.addressSize :=
  congrArg PrefixFacts.addressSize h.facts

theorem Agrees.operandSize (h : p.Agrees q) : p.prefixes.operandSize = q.prefixes.operandSize :=
  congrArg PrefixFacts.operandSize h.facts

include h

theorem Agrees.modRMOf : p.modRMOf d = q.modRMOf d := by
  have hb := h.getElem? 0
  simp only [Nat.add_zero] at hb
  simp only [DecodePoint.modRMOf, hb]

theorem Agrees.wantsSib : p.wantsSib d = q.wantsSib d := by
  simp only [DecodePoint.wantsSib, h.modRMOf d, h.addressSize]

theorem Agrees.sibOf : p.sibOf d = q.sibOf d := by
  simp only [DecodePoint.sibOf, h.wantsSib d, h.getElem? 1]

theorem Agrees.displacementOf : p.displacementOf d = q.displacementOf d := by
  simp only [DecodePoint.displacementOf, h.modRMOf d, h.sibOf d, h.addressSize]

theorem Agrees.immediateStart :
    ∃ k, p.immediateStart d = p.opcodeEnd + k ∧ q.immediateStart d = q.opcodeEnd + k := by
  refine ⟨(if d.hasModRM then 1 else 0) + (if q.wantsSib d then 1 else 0) + q.displacementOf d,
    ?_, ?_⟩
  · simp only [DecodePoint.immediateStart, h.wantsSib d, h.displacementOf d, Nat.add_assoc]
  · simp only [DecodePoint.immediateStart, Nat.add_assoc]

theorem Agrees.lengthOf :
    ∃ k, p.lengthOf d = p.opcodeEnd + k ∧ q.lengthOf d = q.opcodeEnd + k := by
  obtain ⟨k, hp, hq⟩ := h.immediateStart d
  have hi : p.immediateBytes d = q.immediateBytes d := by
    simp only [immediateBytes, h.operandSize, h.addressSize]
  refine ⟨k + q.immediateBytes d, ?_, ?_⟩
  · rw [DecodePoint.lengthOf, hp, hi, Nat.add_assoc]
  · rw [DecodePoint.lengthOf, hq, Nat.add_assoc]

theorem Agrees.imm8Of : p.imm8Of d = q.imm8Of d := by
  obtain ⟨k, hp, hq⟩ := h.immediateStart d
  simp only [DecodePoint.imm8Of, hp, hq, h.getElem? k]

theorem Agrees.isReadable (hr : p.IsReadable d) : q.IsReadable d := by
  have hl := h.length
  obtain ⟨k, hp, hq⟩ := h.immediateStart d
  refine ⟨fun hm => ?_, fun hw => ?_, fun hi => ?_⟩
  · have := hr.modRM hm
    omega
  · have := hr.sib ((h.wantsSib d).trans hw)
    omega
  · have := hr.imm8 hi
    omega

theorem Agrees.isReadable_iff : p.IsReadable d ↔ q.IsReadable d :=
  ⟨h.isReadable d, h.symm.isReadable d⟩

theorem Agrees.matches_iff (e : TableEntry) : p.Matches e ↔ q.Matches e := by
  simp only [Matches, h.isReadable_iff, h.modRMOf, h.imm8Of, h.mainByte,
    e.opcode.accepts_congr h.facts]

theorem Agrees.isCandidate_iff (e : TableEntry) : p.IsCandidate e ↔ q.IsCandidate e := by
  simp only [IsCandidate, h.mainByte, e.opcode.acceptsMainByte_congr h.facts]

end DecodePoint

namespace OpcodeTable

open DecodePoint

variable {t : OpcodeTable} {p q : DecodePoint} {d : Instruction}

theorem matching_congr (h : p.Agrees q) : t.matching p = t.matching q := by
  unfold matching
  simp only [h.matches_iff]

theorem unreadable_congr (h : p.Agrees q) : t.unreadable p = t.unreadable q := by
  unfold unreadable
  simp only [h.isCandidate_iff, h.isReadable_iff]

theorem verdict_ok_congr (h : p.Agrees q)
    (hd : verdict p (t.trials p) = .ok d) (hl : d.length + q.opcodeEnd ≤ maxLength + p.opcodeEnd) :
    ∃ d', verdict q (t.trials q) = .ok d' ∧ d'.mnemonic = d.mnemonic ∧ d'.opcode = d.opcode ∧
      d'.mainByte = d.mainByte ∧ d'.modRM = d.modRM ∧ d'.imm8 = d.imm8 ∧
      d'.length + p.opcodeEnd = d.length + q.opcodeEnd := by
  have ho := t.outcome_verdict p
  rw [hd] at ho
  cases ho with
  | @decoded first hh hall hmax hlen =>
    have hlength := h.length
    obtain ⟨k, hk, hk'⟩ := h.lengthOf first.opcode
    change p.lengthOf first.opcode + q.opcodeEnd ≤ maxLength + p.opcodeEnd at hl
    rw [matching_congr h] at hh hall
    -- every length is the same distance from the main byte, so they stay equal
    have hall' : ∀ e ∈ t.matching q, q.lengthOf e.opcode = q.lengthOf first.opcode := by
      intro e he
      obtain ⟨k', hp', hq'⟩ := h.lengthOf e.opcode
      have := hall e he
      omega
    have hd' := verdict_of_outcome (.decoded hh hall' (by omega) (by omega))
    refine ⟨_, hd', rfl, rfl, h.mainByte.symm, (h.modRMOf first.opcode).symm,
      (h.imm8Of first.opcode).symm, ?_⟩
    change q.lengthOf first.opcode + p.opcodeEnd = p.lengthOf first.opcode + q.opcodeEnd
    omega

theorem verdict_ambiguous_congr (h : p.Agrees q) {names : List Text}
    (hd : verdict p (t.trials p) = .error (.ambiguous names)) :
    verdict q (t.trials q) = .error (.ambiguous names) := by
  have ho := t.outcome_verdict p
  rw [hd] at ho
  cases ho with
  | @ambiguous e e' he he' hne =>
    obtain ⟨k, hk, hk'⟩ := h.lengthOf e.opcode
    obtain ⟨k', hp', hq'⟩ := h.lengthOf e'.opcode
    rw [matching_congr h] at he he' ⊢
    exact verdict_of_outcome (.ambiguous he he' (by omega))

theorem verdict_noMatch_congr (h : p.Agrees q)
    (hd : ∃ seen, verdict p (t.trials p) = .error (.noMatch seen)) :
    ∃ seen, verdict q (t.trials q) = .error (.noMatch seen) := by
  obtain ⟨seen, hd⟩ := hd
  have ho := t.outcome_verdict p
  rw [hd] at ho
  cases ho with
  | noMatch hm hu =>
    rw [matching_congr h] at hm
    rw [unreadable_congr h] at hu
    exact ⟨_, verdict_of_outcome (.noMatch hm hu)⟩

/-! ## Inputs that differ in their prefixes -/

variable {mode mode' : Mode} {start start' rest : List UInt8} {s s' : PrefixState}

theorem decode_eq_of_read (t : OpcodeTable) {b : UInt8}
    (hr : PrefixState.read (start ++ b :: rest) mode = .ok (s, start.length)) :
    t.decode (start ++ b :: rest) mode =
      verdict ⟨start ++ b :: rest, s, start.length, b⟩
        (t.trials ⟨start ++ b :: rest, s, start.length, b⟩) := by
  have hn : start.length < (start ++ b :: rest).length := by simp
  have hb : (start ++ b :: rest)[start.length] = b := by simp
  rw [t.decode_eq_verdict hr hn, hb]

theorem decode_of_read_all (t : OpcodeTable)
    (hr : PrefixState.read start mode = .ok (s, start.length)) :
    t.decode start mode = .error (.truncated (start.length + 1) start.length) := by
  simp only [decode, hr, List.getElem?_eq_none (Nat.le_refl _)]

theorem agrees_of_facts (start start' : List UInt8) (b : UInt8) (rest : List UInt8)
    (hf : s.facts = s'.facts) :
    Agrees ⟨start ++ b :: rest, s, start.length, b⟩
      ⟨start' ++ b :: rest, s', start'.length, b⟩ := by
  have hdrop : ∀ start : List UInt8, (start ++ b :: rest).drop (start.length + 1) = rest := by
    intro start
    rw [← List.drop_drop, List.drop_left, List.drop_succ_cons, List.drop_zero]
  refine ⟨hf, rfl, (hdrop start).trans (hdrop start').symm, ?_⟩
  simp only [opcodeEnd, List.length_append]
  omega

/-- Inputs whose prefixes give the same facts decode to the same instruction, as long as the
second is no longer than an instruction may be. Nothing else about the prefixes has a part in
it, and so no segment, no LOCK, no bit that extends a register, and no `vvvv`. -/
theorem decode_of_facts_eq (t : OpcodeTable) {mode mode' : Mode} {start start' rest : List UInt8}
    {s s' : PrefixState}
    (hr : PrefixState.read (start ++ rest) mode = .ok (s, start.length))
    (hr' : PrefixState.read (start' ++ rest) mode' = .ok (s', start'.length))
    (hf : s.facts = s'.facts) :
    (∀ d, t.decode (start ++ rest) mode = .ok d →
      d.length + start'.length ≤ 15 + start.length →
      ∃ d', t.decode (start' ++ rest) mode' = .ok d' ∧ d'.mnemonic = d.mnemonic ∧
        d'.opcode = d.opcode ∧ d'.mainByte = d.mainByte ∧ d'.modRM = d.modRM ∧
        d'.imm8 = d.imm8 ∧ d'.length + start.length = d.length + start'.length) ∧
    ((∃ seen, t.decode (start ++ rest) mode = .error (.noMatch seen)) ↔
      ∃ seen, t.decode (start' ++ rest) mode' = .error (.noMatch seen)) ∧
    (∀ names, t.decode (start ++ rest) mode = .error (.ambiguous names) ↔
      t.decode (start' ++ rest) mode' = .error (.ambiguous names)) ∧
    ∀ u u' : PrefixState, u.Alike u' → u.facts = u'.facts := by
  cases rest with
  | nil =>
    -- without a main byte the answer is a demand for one
    rw [List.append_nil] at hr hr' ⊢
    rw [List.append_nil, t.decode_of_read_all hr, t.decode_of_read_all hr']
    exact ⟨by simp, by simp, by simp, fun _ _ => PrefixState.facts_eq_of_alike⟩
  | cons b rest =>
    have ha := agrees_of_facts start start' b rest hf
    rw [t.decode_eq_of_read hr, t.decode_eq_of_read hr']
    refine ⟨fun d hd hl => ?_, ⟨verdict_noMatch_congr ha, verdict_noMatch_congr ha.symm⟩,
      fun names => ⟨verdict_ambiguous_congr ha, verdict_ambiguous_congr ha.symm⟩,
      fun _ _ => PrefixState.facts_eq_of_alike⟩
    obtain ⟨d', hd', hm, ho, hb, hr, hi, hlen⟩ := verdict_ok_congr ha hd (by
      simp only [opcodeEnd, maxLength]
      omega)
    simp only [opcodeEnd] at hlen
    exact ⟨d', hd', hm, ho, hb, hr, hi, by omega⟩

/-- `80 /0 ib` on a byte in memory or in a register. -/
def addByteTable : OpcodeTable :=
  ⟨[⟨"add".toList, ⟨{ OpcodeFields.initial with
      mainByte := 0x80, form := .regAnyRM 0, immediate := .fixed 1 }, by decide⟩⟩]⟩

theorem decode_of_facts_eq_modes :
    ∃ s s' d d', PrefixState.read ([0xF3] ++ [0x80, 0x44, 0x88, 0x10, 0x7F, 0x90]) .ia32 =
        .ok (s, 1) ∧
      PrefixState.read ([0x66, 0x67, 0x2E, 0xF3] ++ [0x80, 0x44, 0x88, 0x10, 0x7F, 0x90]) .ia16 =
        .ok (s', 4) ∧ s.facts = s'.facts ∧
      addByteTable.decode [0xF3, 0x80, 0x44, 0x88, 0x10, 0x7F, 0x90] .ia32 = .ok d ∧
      addByteTable.decode [0x66, 0x67, 0x2E, 0xF3, 0x80, 0x44, 0x88, 0x10, 0x7F, 0x90] .ia16 =
        .ok d' ∧
      d.imm8 = some 0x7F ∧ d'.imm8 = d.imm8 ∧ d.length = 6 ∧ d'.length = 9 := by
  obtain ⟨s, s', hr, hr', hf⟩ : ∃ s s',
      PrefixState.read ([0xF3] ++ [0x80, 0x44, 0x88, 0x10, 0x7F, 0x90]) .ia32 = .ok (s, 1) ∧
      PrefixState.read ([0x66, 0x67, 0x2E, 0xF3] ++ [0x80, 0x44, 0x88, 0x10, 0x7F, 0x90]) .ia16 =
        .ok (s', 4) ∧ s.facts = s'.facts := ⟨_, _, rfl, rfl, by decide⟩
  obtain ⟨d, hd, hi, hl⟩ : ∃ d,
      addByteTable.decode ([0xF3] ++ [0x80, 0x44, 0x88, 0x10, 0x7F, 0x90]) .ia32 = .ok d ∧
      d.imm8 = some 0x7F ∧ d.length = 6 := ⟨_, rfl, by decide, by decide⟩
  obtain ⟨d', hd', -, -, -, -, hi', hl'⟩ :=
    (decode_of_facts_eq addByteTable hr hr' hf).1 d hd (by rw [hl]; decide)
  rw [hl] at hl'
  simp only [List.length_cons, List.length_nil] at hl'
  exact ⟨s, s', d, d', hr, hr', hf, hd, hd', hi, hi', hl, by omega⟩

end OpcodeTable
end X86Encoding
