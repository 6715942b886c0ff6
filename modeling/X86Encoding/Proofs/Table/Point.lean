import X86Encoding.Proofs.Prefix.Reading
import X86Encoding.Table.Decode

/-!
Finding the main byte. `DecodePoint.locate` is the first half of decoding, and `Continues` says
what more bytes may do to it: only an answer that asks for more bytes can change.
-/

set_option autoImplicit false

namespace X86Encoding

namespace DecodePoint

/-- The point at which a reading of the prefixes of `bytes` ends, if a byte is left there. -/
def ofReading (bytes : List UInt8) : PrefixState.Reading → Except DecodeError DecodePoint
  | .error e => .error e
  | .ok (prefixes, offset) =>
    match bytes[offset]? with
    | none => .error (.truncated (offset + 1) bytes.length)
    | some mainByte => .ok ⟨bytes, prefixes, offset, mainByte⟩

def locate (bytes : List UInt8) (mode : Mode) : Except DecodeError DecodePoint :=
  ofReading bytes (PrefixState.read bytes mode)

def isLead (p : DecodePoint) : Bool :=
  p.prefixes.extended.isNone && p.prefixes.map == .primary &&
    (VectorLead.ofByte? p.mainByte).isSome

/-- The number of bytes that tell where the main byte is. Behind a lead byte it takes the next
byte to tell that no vector prefix starts. -/
def lookahead (p : DecodePoint) : Nat := if p.isLead then p.opcodeEnd + 1 else p.opcodeEnd

theorem opcodeEnd_le_lookahead (p : DecodePoint) : p.opcodeEnd ≤ p.lookahead := by
  unfold lookahead
  split <;> omega

def extend (p : DecodePoint) (more : List UInt8) : DecodePoint :=
  { p with bytes := p.bytes ++ more }

@[simp, grind =] theorem extend_bytes (p : DecodePoint) (more : List UInt8) :
    (p.extend more).bytes = p.bytes ++ more := rfl

@[simp, grind =] theorem extend_prefixes (p : DecodePoint) (more : List UInt8) :
    (p.extend more).prefixes = p.prefixes := rfl

@[simp, grind =] theorem extend_mainByte (p : DecodePoint) (more : List UInt8) :
    (p.extend more).mainByte = p.mainByte := rfl

@[simp, grind =] theorem extend_opcodeEnd (p : DecodePoint) (more : List UInt8) :
    (p.extend more).opcodeEnd = p.opcodeEnd := rfl

/-- The answer for `bytes` against the answer for an input that goes on with `more`. -/
inductive Continues (bytes more : List UInt8) :
    Except DecodeError DecodePoint → Except DecodeError DecodePoint → Prop where
  | found {p : DecodePoint} : p.bytes = bytes → bytes[p.offset]? = some p.mainByte →
      p.lookahead ≤ bytes.length → Continues bytes more (.ok p) (.ok (p.extend more))
  | tooLong : Continues bytes more (.error (.tooLong 8)) (.error (.tooLong 8))
  | invalidPrefix {offset : Nat} {fault : PrefixFault} : offset < bytes.length →
      Continues bytes more (.error (.invalidPrefix offset fault))
        (.error (.invalidPrefix offset fault))
  /-- A byte behind the main byte is asked for only where that byte is the last one. -/
  | truncated {needed : Nat} {answer : Except DecodeError DecodePoint} : bytes.length < needed →
      (∀ p, answer = .ok p → needed ≤ p.opcodeEnd ∨
        (p.isLead = true ∧ bytes.length = p.opcodeEnd ∧ needed = p.opcodeEnd + 1)) →
      Continues bytes more (.error (.truncated needed bytes.length)) answer

@[simp] theorem ofReading_error (bytes : List UInt8) (e : DecodeError) :
    ofReading bytes (.error e) = .error e := rfl

theorem ofReading_of_getElem? {bytes : List UInt8} (s : PrefixState) {n : Nat} {b : UInt8}
    (h : bytes[n]? = some b) : ofReading bytes (.ok (s, n)) = .ok ⟨bytes, s, n, b⟩ := by
  simp only [ofReading, h]

theorem ofReading_of_le {bytes : List UInt8} (s : PrefixState) {n : Nat} (h : bytes.length ≤ n) :
    ofReading bytes (.ok (s, n)) = .error (.truncated (n + 1) bytes.length) := by
  simp only [ofReading, List.getElem?_eq_none h]

theorem of_ofReading {bytes : List UInt8} {r : PrefixState.Reading} {p : DecodePoint}
    (h : ofReading bytes r = .ok p) :
    r = .ok (p.prefixes, p.offset) ∧ p.bytes = bytes ∧ bytes[p.offset]? = some p.mainByte := by
  unfold ofReading at h
  split at h
  · cases h
  · split at h <;> cases h
    exact ⟨rfl, rfl, by assumption⟩

theorem offset_of_ofReading {bytes : List UInt8} {s : PrefixState} {n : Nat} {p : DecodePoint}
    (h : ofReading bytes (.ok (s, n)) = .ok p) : p.offset = n := by
  have := (of_ofReading h).1
  simp only [Except.ok.injEq, Prod.mk.injEq] at this
  exact this.2.symm

/-- A reading that both inputs agree on, where only a lead byte as main byte takes a byte
behind it. -/
theorem continues_of_ok {bytes : List UInt8} (more : List UInt8) (s : PrefixState) {n : Nat}
    (hn : n ≤ bytes.length)
    (hl : s.extended = none → s.map = .primary → ∀ b, bytes[n]? = some b →
      (VectorLead.ofByte? b).isSome → n + 2 ≤ bytes.length) :
    Continues bytes more (ofReading bytes (.ok (s, n)))
      (ofReading (bytes ++ more) (.ok (s, n))) := by
  by_cases hlt : n < bytes.length
  · have hb := List.getElem?_eq_getElem hlt
    rw [ofReading_of_getElem? s hb,
      ofReading_of_getElem? s (by rw [List.getElem?_append_left hlt, hb])]
    refine .found (p := ⟨bytes, s, n, bytes[n]⟩) rfl hb ?_
    unfold lookahead opcodeEnd
    split
    · rename_i h
      simp only [isLead, Bool.and_eq_true, Option.isNone_iff_eq_none, beq_iff_eq] at h
      exact hl h.1.1 h.1.2 _ hb h.2
    · exact hlt
  · have he : n = bytes.length := by omega
    rw [ofReading_of_le s (Nat.le_of_not_lt hlt)]
    refine .truncated (by omega) ?_
    intro p hp
    have := offset_of_ofReading hp
    exact .inl (by unfold opcodeEnd; omega)

section Reading

variable {start rest : List UInt8} (more : List UInt8) {mode : Mode} {legacy : PrefixList}

/-- The first byte is no lead byte unless something stands before it that settles this. -/
theorem continues_readEscape {b : UInt8} (extended : Option ExtendedPrefix)
    (hb : extended = none → VectorLead.ofByte? b = none) :
    Continues (start ++ b :: rest) more
      (ofReading (start ++ b :: rest)
        (PrefixState.readEscape mode legacy extended start.length (b :: rest)))
      (ofReading (start ++ b :: rest ++ more)
        (PrefixState.readEscape mode legacy extended start.length (b :: rest ++ more))) := by
  have hle := OpcodeMap.leading_size_le (b :: rest)
  have hmono := OpcodeMap.leading_size_append (b :: rest) more
  rw [PrefixState.readEscape_eq, PrefixState.readEscape_eq]
  by_cases hlt : (OpcodeMap.leading (b :: rest)).2 < (b :: rest).length
  · rw [OpcodeMap.leading_append_of_lt more hlt]
    refine continues_of_ok more _ (by rw [List.length_append]; omega) ?_
    intro he hm c hc hlead
    rw [OpcodeMap.leading_size_of_primary hm] at hc
    simp only [Nat.add_zero, List.getElem?_append_right (Nat.le_refl _), Nat.sub_self,
      List.getElem?_cons_zero, Option.some.injEq] at hc
    rw [← hc, hb he] at hlead
    cases hlead
  · have hout : (start ++ b :: rest).length ≤
        start.length + (OpcodeMap.leading (b :: rest)).2 := by
      rw [List.length_append]; omega
    rw [ofReading_of_le _ hout]
    refine .truncated (by omega) ?_
    intro p hp
    have := offset_of_ofReading hp
    exact .inl (by unfold opcodeEnd; omega)

theorem continues_readAfterRex (rex : Rex) :
    Continues (start ++ rest) more
      (ofReading (start ++ rest)
        (PrefixState.readAfterRex (start ++ rest).length mode legacy rex start.length rest))
      (ofReading (start ++ rest ++ more)
        (PrefixState.readAfterRex (start ++ rest ++ more).length mode legacy rex start.length
          (rest ++ more))) := by
  cases rest with
  | nil =>
    rw [List.append_nil, PrefixState.readAfterRex, ofReading_error]
    refine .truncated (by omega) ?_
    intro p hp
    have := PrefixState.offset_le_of_readAfterRex (of_ofReading hp).1
    exact .inl (by unfold opcodeEnd; omega)
  | cons b rest =>
    simp only [PrefixState.readAfterRex, List.cons_append]
    split
    · exact .invalidPrefix (by simp)
    · exact continues_readEscape more _ (by simp)

theorem continues_readAfterLead {lead : VectorLead} {b : UInt8}
    (hb : VectorLead.ofByte? b = some lead) :
    Continues (start ++ b :: rest) more
      (ofReading (start ++ b :: rest)
        (PrefixState.readAfterLead (start ++ b :: rest).length mode legacy lead start.length rest))
      (ofReading (start ++ b :: rest ++ more)
        (PrefixState.readAfterLead (start ++ b :: rest ++ more).length mode legacy lead
          start.length (rest ++ more))) := by
  have hpos := lead.payloadSize_pos
  have hlen : (start ++ b :: rest).length = start.length + 1 + rest.length := by
    simp only [List.length_append, List.length_cons]; omega
  cases rest with
  | nil =>
    rw [PrefixState.readAfterLead, ofReading_error]
    refine .truncated (by rw [hlen, List.length_nil]; omega) ?_
    intro p hp
    obtain ⟨hr, -, hm⟩ := of_ofReading hp
    obtain ⟨_, _, _, ⟨_, hs, hn⟩ | ⟨_, _, _, v, _, _, hn⟩⟩ := PrefixState.readAfterLead_cases hr
    · have hl : p.isLead = true := by
        rw [hn, List.append_assoc, List.getElem?_append_right (Nat.le_refl _)] at hm
        simp only [Nat.sub_self, List.singleton_append, List.getElem?_cons_zero,
          Option.some.injEq] at hm
        simp [isLead, hs, ← hm, hb]
      refine .inr ⟨hl, ?_, ?_⟩
      · rw [hlen, List.length_nil, opcodeEnd]; omega
      · rw [opcodeEnd]; omega
    · exact .inl (by unfold opcodeEnd; omega)
  | cons c rest =>
    simp only [PrefixState.readAfterLead, List.cons_append]
    split
    · split
      · exact .invalidPrefix (by omega)
      · by_cases hp : (c :: rest).length < lead.payloadSize
        · rw [if_pos hp, ofReading_error]
          refine .truncated (by omega) ?_
          intro p hp
          obtain ⟨hr, -, -⟩ := of_ofReading hp
          have hn : p.offset = start.length + 1 + lead.payloadSize := by
            split at hr
            · cases hr
            · split at hr
              · cases hr
              · simp only [Except.ok.injEq, Prod.mk.injEq] at hr
                exact hr.2.symm
          exact .inl (by unfold opcodeEnd; omega)
        · have hp' : ¬ (c :: (rest ++ more)).length < lead.payloadSize := by
            simp only [List.length_cons, List.length_append] at hp ⊢; omega
          have ht : (c :: (rest ++ more)).take lead.payloadSize =
              (c :: rest).take lead.payloadSize := by
            rw [← List.cons_append, List.take_append_of_le_length (by omega)]
          rw [if_neg hp, if_neg hp', ht]
          split
          · exact .invalidPrefix (by omega)
          · exact continues_of_ok more _ (by omega) (by simp)
    · refine continues_of_ok more _ (by omega) ?_
      intro _ _ _ _ _
      simp only [List.length_cons] at hlen
      omega

theorem continues_readAfterLegacy :
    Continues (start ++ rest) more
      (ofReading (start ++ rest)
        (PrefixState.readAfterLegacy (start ++ rest).length mode legacy start.length rest))
      (ofReading (start ++ rest ++ more)
        (PrefixState.readAfterLegacy (start ++ rest ++ more).length mode legacy start.length
          (rest ++ more))) := by
  cases rest with
  | nil =>
    rw [List.append_nil, PrefixState.readAfterLegacy, ofReading_error]
    refine .truncated (by omega) ?_
    intro p hp
    have := PrefixState.offset_le_of_readAfterLegacy (of_ofReading hp).1
    exact .inl (by unfold opcodeEnd; omega)
  | cons b rest =>
    simp only [PrefixState.readAfterLegacy, List.cons_append]
    split
    · have := @continues_readAfterRex (start ++ [b]) rest more mode legacy (.ofByte b)
      simpa using this
    · split
      · rename_i lead hb
        exact continues_readAfterLead more hb
      · rename_i hb
        exact continues_readEscape more none (fun _ => hb)

end Reading

theorem length_leading_le_of_locate {bytes : List UInt8} {mode : Mode} {p : DecodePoint}
    (h : locate bytes mode = .ok p) : (LegacyPrefix.leading bytes).length ≤ p.offset := by
  obtain ⟨hl, k, hn, -⟩ := PrefixState.reads_of_read (of_ofReading h).1
  rw [← hl, hn]
  exact Nat.le_add_right ..

theorem locate_continues (bytes more : List UInt8) (mode : Mode) :
    Continues bytes more (locate bytes mode) (locate (bytes ++ more) mode) := by
  have hle := LegacyPrefix.leading_length_le bytes
  by_cases hlt : (LegacyPrefix.leading bytes).length < bytes.length
  · -- both inputs have the same run of legacy prefixes
    have hl := LegacyPrefix.leading_append_of_lt more hlt
    obtain ⟨start, rest, hb, hs⟩ : ∃ start rest, bytes = start ++ rest ∧
        start.length = (LegacyPrefix.leading bytes).length :=
      ⟨bytes.take (LegacyPrefix.leading bytes).length, bytes.drop _,
        (List.take_append_drop ..).symm, by rw [List.length_take]; omega⟩
    have hd : bytes.drop start.length = rest := by rw [hb, List.drop_left]
    have hd' : (bytes ++ more).drop start.length = rest ++ more := by
      rw [List.drop_append_of_le_length (by omega), hd]
    unfold locate PrefixState.read
    simp only [hl, ← hs, hd, hd']
    cases PrefixList.ofList (LegacyPrefix.leading bytes) with
    | error e => exact .tooLong
    | ok legacy =>
      subst hb
      exact continues_readAfterLegacy more
  · have he : (LegacyPrefix.leading bytes).length = bytes.length := by omega
    have hl := LegacyPrefix.leading_append_of_eq more he
    by_cases hc : bytes.length ≤ PrefixList.capacity
    · obtain ⟨legacy, ho, -⟩ := PrefixList.ofList_of_le
        (show (LegacyPrefix.leading bytes).length ≤ _ by omega)
      have hr : locate bytes mode = .error (.truncated (bytes.length + 1) bytes.length) := by
        simp only [locate, PrefixState.read, ho, he, List.drop_length, PrefixState.readAfterLegacy,
          ofReading_error]
      rw [hr]
      refine .truncated (by omega) ?_
      intro p hp
      have := length_leading_le_of_locate hp
      rw [hl, List.length_append] at this
      exact .inl (by unfold opcodeEnd; omega)
    · have ho := PrefixList.ofList_of_lt
        (show _ < (LegacyPrefix.leading bytes).length by omega)
      have ho' := PrefixList.ofList_of_lt
        (show _ < (LegacyPrefix.leading (bytes ++ more)).length by
          rw [hl, List.length_append]; omega)
      simp only [locate, PrefixState.read, ho, ho', ofReading_error]
      exact .tooLong

/-- What a cut at `k` makes of a point. -/
theorem locate_take {bytes : List UInt8} {mode : Mode} {p : DecodePoint}
    (h : locate bytes mode = .ok p) {k : Nat} (hk : k ≤ bytes.length) :
    (∃ needed, locate (bytes.take k) mode = .error (.truncated needed k) ∧ k < needed ∧
      (needed ≤ p.opcodeEnd ∨ (p.isLead = true ∧ k = p.opcodeEnd ∧ needed = k + 1))) ∨
    (p.lookahead ≤ k ∧ ∃ q, locate (bytes.take k) mode = .ok q ∧ q.bytes = bytes.take k ∧
      p = q.extend (bytes.drop k)) := by
  have hl : (bytes.take k).length = k := by rw [List.length_take]; omega
  have hc := locate_continues (bytes.take k) (bytes.drop k) mode
  rw [List.take_append_drop, h] at hc
  generalize locate (bytes.take k) mode = r at hc
  cases hc with
  | @found q hb _ hla =>
    rw [hl] at hla
    exact .inr ⟨hla, q, rfl, hb, rfl⟩
  | @truncated needed _ hlt hn =>
    rw [hl] at hlt hn
    refine .inl ⟨needed, by rw [hl], hlt, ?_⟩
    rcases hn p rfl with hn | ⟨h₁, h₂, h₃⟩
    · exact .inl hn
    · exact .inr ⟨h₁, h₂, by omega⟩

theorem isSome_ofByte?_iff (b : UInt8) :
    (VectorLead.ofByte? b).isSome = true ↔ b ∈ ([0xC4, 0xC5, 0x62, 0x8F] : List UInt8) := by
  simp [VectorLead.ofByte?, VectorLead.all, VectorLead.byte, List.find?_isSome]
  grind

end DecodePoint

theorem OpcodeTable.decode_eq_locate (t : OpcodeTable) (bytes : List UInt8) (mode : Mode) :
    t.decode bytes mode =
      match DecodePoint.locate bytes mode with
      | .error e => .error e
      | .ok p => verdict p (t.trials p) := by
  unfold decode DecodePoint.locate
  cases PrefixState.read bytes mode with
  | error e => rfl
  | ok r =>
    simp only [DecodePoint.ofReading]
    cases bytes[r.2]? <;> rfl

end X86Encoding
