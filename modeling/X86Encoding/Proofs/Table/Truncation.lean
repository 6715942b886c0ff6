import X86Encoding.Proofs.Opcode.Satisfiable
import X86Encoding.Proofs.Table.Appending

/-!
Demands for bytes that can be met. An entry that lacks bytes comes to match once they are there,
unless its ModRM byte is there already and is not the right one: the missing bytes are asked for
before the ModRM byte is looked at. So a demand can be met except where this byte rules out all
the entries that make it.
-/

set_option autoImplicit false

namespace X86Encoding

theorem ModRM.displacementSize_le (m : ModRM) (size : AddressSize) :
    m.displacementSize size ≤ 4 := by
  unfold displacementSize
  cases size <;> grind

@[simp] theorem AddressingForm.admits_none (form : AddressingForm) :
    form.admits none = !form.hasModRM := by
  cases form <;> rfl

theorem AddressingForm.exists_byte_admits {form : AddressingForm}
    (hreg : ∀ reg, form.fixedReg? = some reg → reg ≤ 7) (h : form.hasModRM = true) :
    ∃ b, form.admits (some (ModRM.ofByte b)) = true := by
  obtain ⟨_ | b, hadmits⟩ := exists_admits hreg
  · simp [h] at hadmits
  · exact ⟨b, hadmits⟩

namespace DecodePoint

variable {p : DecodePoint} {d : OpcodeDescriptor} {e : TableEntry}

theorem displacementOf_le (p : DecodePoint) (d : OpcodeDescriptor) : p.displacementOf d ≤ 4 := by
  unfold displacementOf
  split
  · exact Nat.zero_le 4
  · split
    · exact Nat.le_refl 4
    · exact ModRM.displacementSize_le ..

theorem isReadable_of_length (d : OpcodeDescriptor) (h : p.opcodeEnd + 7 ≤ p.bytes.length) :
    p.IsReadable d := by
  have hdisplacement := p.displacementOf_le d
  have hstart : p.immediateStart d ≤ p.opcodeEnd + 6 := by
    unfold immediateStart
    split <;> split <;> omega
  exact ⟨fun _ => by omega, fun _ => by omega, fun _ => by omega⟩

theorem isSome_imm8Of (h : p.IsReadable d) :
    (p.imm8Of d).isSome = (d.fields.immediate.fixed? == some 1) := by
  unfold imm8Of
  split
  · rename_i hfixed
    rw [List.getElem?_eq_getElem (h.imm8 hfixed), hfixed]
    rfl
  · rename_i hfixed
    exact (beq_eq_false_iff_ne.2 hfixed).symm

theorem matches_of_isReadable (h : p.IsReadable e.opcode) (hc : p.IsCandidate e)
    (hform : e.opcode.fields.form.admits (p.modRMOf e.opcode) = true)
    (himm : e.opcode.fields.opcodeImmediate.all (p.imm8Of e.opcode == some ·) = true) :
    p.Matches e := by
  refine ⟨h, ?_⟩
  have hbyte : e.opcode.acceptsMainByte p.prefixes p.mainByte = true := hc
  simp only [OpcodeDescriptor.accepts, hbyte, hform, himm, isSome_imm8Of h, beq_self_eq_true,
    Bool.and_self]

@[simp] theorem extend_extend (p : DecodePoint) (more more' : List UInt8) :
    (p.extend more).extend more' = p.extend (more ++ more') := by
  simp only [extend, List.append_assoc]

theorem length_le_immediateStart_extend (more : List UInt8) (h : ¬ p.IsReadable d)
    (hi : d.fields.immediate.fixed? = some 1) :
    p.bytes.length ≤ (p.extend more).immediateStart d := by
  have hlt := length_lt_missingEnd h
  have hle := missingEnd_le_lengthOf more h
  rw [lengthOf, immediateBytes_of_imm8 hi] at hle
  omega

/-- What is left open of an entry may be the same byte everywhere. -/
def filling (d : OpcodeDescriptor) : List UInt8 :=
  List.replicate 15 (d.fields.opcodeImmediate.getD 0)

@[simp] theorem length_filling (d : OpcodeDescriptor) : (filling d).length = 15 :=
  List.length_replicate

theorem getElem?_extend_filling {i : Nat} (hi : p.bytes.length ≤ i)
    (hlt : i < (p.extend (filling d)).bytes.length) :
    (p.extend (filling d)).bytes[i]? = some (d.fields.opcodeImmediate.getD 0) := by
  rw [extend_bytes, List.length_append, length_filling] at hlt
  rw [extend_bytes, filling, List.getElem?_append_right hi, List.getElem?_replicate,
    if_pos (by omega)]

theorem matches_extend_filling (hend : p.opcodeEnd ≤ p.bytes.length) (hc : p.IsCandidate e)
    (hm : e.opcode.hasModRM = true → p.opcodeEnd < p.bytes.length)
    (hform : e.opcode.fields.form.admits (p.modRMOf e.opcode) = true)
    (hi : e.opcode.fields.immediate.fixed? = some 1 →
      p.bytes.length ≤ (p.extend (filling e.opcode)).immediateStart e.opcode) :
    (p.extend (filling e.opcode)).Matches e := by
  have hr : (p.extend (filling e.opcode)).IsReadable e.opcode := by
    apply isReadable_of_length
    rw [extend_opcodeEnd, extend_bytes, List.length_append, length_filling]
    omega
  refine matches_of_isReadable hr hc ?_ ?_
  · rw [modRMOf_extend _ hm]
    exact hform
  · cases ho : e.opcode.fields.opcodeImmediate with
    | none => rfl
    | some byte =>
      have hfixed := e.opcode.isConsistent.immediate_fixed (by rw [ho]; exact Option.some_ne_none _)
      rw [Option.all_some, beq_iff_eq, imm8Of, if_pos hfixed,
        getElem?_extend_filling (hi hfixed) (hr.imm8 hfixed), ho, Option.getD_some]

theorem exists_matches_extend_of_missing (hend : p.bytes.length = p.opcodeEnd)
    (hc : p.IsCandidate e) (hm : e.opcode.hasModRM = true) :
    ∃ more, 15 ≤ more.length ∧ (p.extend more).Matches e := by
  obtain ⟨b, hadmits⟩ :=
    AddressingForm.exists_byte_admits e.opcode.isConsistent.fixedReg_le hm
  have hlen : (p.extend [b]).bytes.length = (p.extend [b]).opcodeEnd + 1 := by
    rw [extend_bytes, List.length_append, hend, extend_opcodeEnd, List.length_singleton]
  have hform : e.opcode.fields.form.admits ((p.extend [b]).modRMOf e.opcode) = true := by
    rw [modRMOf, if_pos hm, extend_bytes, extend_opcodeEnd, ← hend, List.getElem?_concat_length]
    exact hadmits
  have hmatch : ((p.extend [b]).extend (filling e.opcode)).Matches e := by
    refine matches_extend_filling (by omega) hc (fun _ => by omega) hform fun _ => ?_
    rw [hlen, immediateStart, hm, if_pos rfl, extend_opcodeEnd _ (filling _)]
    omega
  rw [extend_extend] at hmatch
  exact ⟨_, by rw [List.length_append, length_filling]; omega, hmatch⟩

/-- An entry that lacks bytes can come to match as long as no ModRM byte rules it out. -/
theorem exists_matches_extend (hend : p.opcodeEnd ≤ p.bytes.length) (hc : p.IsCandidate e)
    (hr : ¬ p.IsReadable e.opcode)
    (hopen : e.opcode.hasModRM = true → ∀ b, p.bytes[p.opcodeEnd]? = some b →
      e.opcode.fields.form.admits (some (.ofByte b)) = true) :
    ∃ more, 15 ≤ more.length ∧ (p.extend more).Matches e := by
  have hfill := length_le_immediateStart_extend (filling e.opcode) hr
  have hlen := Nat.le_of_eq (length_filling e.opcode).symm
  cases hm : e.opcode.hasModRM with
  | false =>
    have hform : e.opcode.fields.form.admits (p.modRMOf e.opcode) = true := by
      rw [modRMOf_of_not hm, AddressingForm.admits_none]
      exact congrArg (!·) hm
    exact ⟨_, hlen, matches_extend_filling hend hc (by simp [hm]) hform hfill⟩
  | true =>
    cases hb : p.bytes[p.opcodeEnd]? with
    | none =>
      have hle := List.getElem?_eq_none_iff.1 hb
      exact exists_matches_extend_of_missing (Nat.le_antisymm hle hend) hc hm
    | some b =>
      have hlt : p.opcodeEnd < p.bytes.length := (List.getElem?_eq_some_iff.1 hb).1
      have hform : e.opcode.fields.form.admits (p.modRMOf e.opcode) = true := by
        rw [modRMOf, if_pos hm, hb]
        exact hopen hm b hb
      exact ⟨_, hlen, matches_extend_filling hend hc (fun _ => hlt) hform hfill⟩

end DecodePoint

namespace OpcodeTable

open DecodePoint

variable {t : OpcodeTable} {p : DecodePoint} {e : TableEntry} {bytes : List UInt8} {mode : Mode}

def IsSettled : Except DecodeError Instruction → Prop
  | .error (.truncated _ _) | .error (.noMatch _) => False
  | _ => True

/-- Nothing matches, and the byte behind the main byte is the wrong ModRM byte for every entry
that lacks bytes. -/
def IsRuledOut (t : OpcodeTable) (p : DecodePoint) : Prop :=
  t.matching p = [] ∧ ∃ b, p.bytes[p.opcodeEnd]? = some b ∧
    ∀ e ∈ t.unreadable p, e.opcode.hasModRM = true ∧
      e.opcode.fields.form.admits (some (.ofByte b)) = false

theorem isSettled_of_mem (he : e ∈ t.matching p) (hl : 15 ≤ p.bytes.length) :
    IsSettled (verdict p (t.trials p)) := by
  have ho := t.outcome_verdict p
  generalize verdict p (t.trials p) = r at ho
  cases ho with
  | decoded => trivial
  | tooLong => trivial
  | ambiguous => trivial
  | cutShort hh hall hmax hlen =>
    have hroom : maxLength = 15 := rfl
    omega
  | unread hm => exact absurd he (hm ▸ List.not_mem_nil)
  | noMatch hm => exact absurd he (hm ▸ List.not_mem_nil)

theorem not_isSettled_of_nil (hm : t.matching p = []) :
    ¬ IsSettled (verdict p (t.trials p)) := by
  have ho := t.outcome_verdict p
  generalize verdict p (t.trials p) = r at ho
  cases ho with
  | decoded hh => simp [hm] at hh
  | tooLong hh => simp [hm] at hh
  | ambiguous he => simp [hm] at he
  | cutShort => exact id
  | unread => exact id
  | noMatch => exact id

theorem IsRuledOut.matching_extend (h : t.IsRuledOut p) (more : List UInt8) :
    t.matching (p.extend more) = [] := by
  obtain ⟨hm, b, hb, hall⟩ := h
  refine List.eq_nil_iff_forall_not_mem.2 fun e he => ?_
  obtain ⟨he, hmatch⟩ := mem_matching.1 he
  by_cases hr : p.IsReadable e.opcode
  · have hmem := mem_matching.2 ⟨he, (matches_extend_iff more hr).1 hmatch⟩
    rw [hm] at hmem
    exact List.not_mem_nil hmem
  · obtain ⟨hmod, hform⟩ := hall e (mem_unreadable.2 ⟨he, hmatch.isCandidate, hr⟩)
    have hlt : p.opcodeEnd < p.bytes.length := (List.getElem?_eq_some_iff.1 hb).1
    have haccepts := hmatch.2
    rw [modRMOf_extend more (fun _ => hlt), modRMOf, if_pos hmod, hb] at haccepts
    simp only [OpcodeDescriptor.accepts, Option.map_some, hform, Bool.and_false, Bool.false_and,
      Bool.false_eq_true] at haccepts

theorem IsRuledOut.verdict_extend (h : t.IsRuledOut p) {more : List UInt8}
    (hl : 6 ≤ more.length) :
    verdict (p.extend more) (t.trials (p.extend more)) =
      .error (.noMatch (p.bytes.take p.opcodeEnd)) := by
  obtain ⟨-, b, hb, -⟩ := id h
  have hlt : p.opcodeEnd < p.bytes.length := (List.getElem?_eq_some_iff.1 hb).1
  have hunreadable : t.unreadable (p.extend more) = [] := by
    refine List.eq_nil_iff_forall_not_mem.2 fun e he => (mem_unreadable.1 he).2.2 ?_
    apply isReadable_of_length
    rw [extend_opcodeEnd, extend_bytes, List.length_append]
    omega
  have hv := verdict_of_outcome (.noMatch (h.matching_extend more) hunreadable)
  rwa [extend_bytes, extend_opcodeEnd, List.take_append_of_le_length (Nat.le_of_lt hlt)] at hv

theorem exists_mem_of_truncated {needed available : Nat}
    (h : verdict p (t.trials p) = .error (.truncated needed available)) :
    t.matching p ≠ [] ∨ ∃ e, e ∈ t.unreadable p := by
  have ho := t.outcome_verdict p
  rw [h] at ho
  cases ho with
  | cutShort hh => exact .inl (List.ne_nil_of_mem (List.mem_of_mem_head? hh))
  | unread _ he => exact .inr ⟨_, he⟩

theorem exists_open_of_not_isRuledOut (hm : t.matching p = []) (he : e ∈ t.unreadable p)
    (hout : ¬ t.IsRuledOut p) :
    ∃ e ∈ t.unreadable p, e.opcode.hasModRM = true → ∀ b, p.bytes[p.opcodeEnd]? = some b →
      e.opcode.fields.form.admits (some (.ofByte b)) = true := by
  by_contra hnone
  have hall : ∀ e ∈ t.unreadable p, e.opcode.hasModRM = true ∧
      ∃ b, p.bytes[p.opcodeEnd]? = some b ∧
        e.opcode.fields.form.admits (some (.ofByte b)) = false := by
    intro e he
    by_contra hopen
    refine hnone ⟨e, he, fun hmod b hb => ?_⟩
    by_contra hform
    exact hopen ⟨hmod, b, hb, Bool.eq_false_iff.2 hform⟩
  obtain ⟨-, b, hb, -⟩ := hall e he
  refine hout ⟨hm, b, hb, fun e he => ?_⟩
  obtain ⟨hmod, b', hb', hform⟩ := hall e he
  rw [hb, Option.some.injEq] at hb'
  exact ⟨hmod, hb' ▸ hform⟩

theorem exists_matching_extend (hend : p.opcodeEnd ≤ p.bytes.length) {needed available : Nat}
    (h : verdict p (t.trials p) = .error (.truncated needed available))
    (hout : ¬ t.IsRuledOut p) :
    ∃ (more : List UInt8) (e : TableEntry), 15 ≤ more.length ∧ e ∈ t.matching (p.extend more) := by
  by_cases hm : t.matching p = []
  · obtain ⟨e, he⟩ := (exists_mem_of_truncated h).resolve_left (not_not_intro hm)
    obtain ⟨e, he, hopen⟩ := exists_open_of_not_isRuledOut hm he hout
    obtain ⟨he, hc, hr⟩ := mem_unreadable.1 he
    obtain ⟨more, hl, hmatch⟩ := exists_matches_extend hend hc hr hopen
    exact ⟨more, e, hl, mem_matching.2 ⟨he, hmatch⟩⟩
  · obtain ⟨e, he⟩ := List.exists_mem_of_ne_nil _ hm
    exact ⟨List.replicate 15 0, e, by simp, mem_matching_extend _ he⟩

/-- A demand for bytes can be met exactly where the ModRM byte does not rule it out. Where it
does, there is no match whatever follows, and six bytes more are enough to say so. -/
theorem truncated_settles_iff (t : OpcodeTable) {s : PrefixState} {n needed available : Nat}
    (hr : PrefixState.read bytes mode = .ok (s, n)) (hn : n < bytes.length)
    (ht : t.decode bytes mode = .error (.truncated needed available)) :
    let p : DecodePoint := ⟨bytes, s, n, bytes[n]⟩
    ((∃ more, IsSettled (t.decode (bytes ++ more) mode) ∧ t.matching (p.extend more) ≠ []) ↔
      ¬ t.IsRuledOut p) ∧
    (t.IsRuledOut p → ∀ more, t.matching (p.extend more) = [] ∧
      ¬ IsSettled (t.decode (bytes ++ more) mode) ∧
      (6 ≤ more.length →
        t.decode (bytes ++ more) mode = .error (.noMatch (bytes.take (n + 1))))) := by
  intro p
  have hp : locate bytes mode = .ok p := by
    rw [locate, hr, ofReading_of_getElem? s (List.getElem?_eq_getElem hn)]
  have hend : p.opcodeEnd ≤ p.bytes.length := hn
  have hlong := fun more => decode_append_eq_verdict more t hp
  rw [t.decode_eq_verdict hr hn] at ht
  refine ⟨⟨?_, fun hout => ?_⟩, fun hout more => ⟨hout.matching_extend more, ?_, fun hl => ?_⟩⟩
  · rintro ⟨more, -, hmatch⟩ hout
    exact hmatch (hout.matching_extend more)
  · obtain ⟨more, e, hl, he⟩ := exists_matching_extend hend ht hout
    refine ⟨more, ?_, List.ne_nil_of_mem he⟩
    rw [hlong]
    refine isSettled_of_mem he ?_
    rw [extend_bytes, List.length_append]
    omega
  · rw [hlong]
    exact not_isSettled_of_nil (hout.matching_extend more)
  · rw [hlong]
    exact hout.verdict_extend hl

/-- `d8 c0+r`, an operand in a register only. -/
def registerTable : OpcodeTable :=
  ⟨[⟨"fadd".toList, ⟨{ OpcodeFields.initial with
      mainByte := 0xD8, form := .regDirectRM 0 }, by decide⟩⟩]⟩

theorem registerTable_isRuledOut :
    registerTable.IsRuledOut ⟨[0xD8, 0x04], .initial .ia32, 0, 0xD8⟩ :=
  ⟨by decide, 0x04, rfl, by decide⟩

theorem truncated_settles_iff_register :
    registerTable.decode [0xD8] .ia32 = .error (.truncated 2 1) ∧
      (∃ more, IsSettled (registerTable.decode ([0xD8] ++ more) .ia32)) ∧
      registerTable.decode [0xD8, 0x04] .ia32 = .error (.truncated 3 2) ∧
      ∀ more, ¬ IsSettled (registerTable.decode ([0xD8, 0x04] ++ more) .ia32) := by
  have hread : ∀ rest, PrefixState.read (0xD8 :: rest) .ia32 = .ok (.initial .ia32, 0) :=
    fun _ => rfl
  have hmain : registerTable.decode [0xD8] .ia32 = .error (.truncated 2 1) := rfl
  have hsib : registerTable.decode [0xD8, 0x04] .ia32 = .error (.truncated 3 2) := rfl
  have hopen : ¬ registerTable.IsRuledOut ⟨[0xD8], .initial .ia32, 0, 0xD8⟩ :=
    fun ⟨_, _, hb, _⟩ => nomatch hb
  obtain ⟨more, hmore, -⟩ :=
    (truncated_settles_iff registerTable (hread []) (by decide) hmain).1.2 hopen
  have hout := (truncated_settles_iff registerTable (hread [0x04]) (by decide) hsib).2
    registerTable_isRuledOut
  exact ⟨hmain, ⟨more, hmore⟩, hsib, fun more => (hout more).2.1⟩

/-- A demand for a SIB byte that no byte meets. -/
theorem not_truncated_settles :
    ¬ ∀ (t : OpcodeTable) (bytes : List UInt8) (mode : Mode) (s : PrefixState) (n needed available :
        Nat), PrefixState.read bytes mode = .ok (s, n) → n < bytes.length →
      t.decode bytes mode = .error (.truncated needed available) →
      ∃ more, IsSettled (t.decode (bytes ++ more) mode) := by
  intro h
  obtain ⟨more, hmore⟩ := h registerTable [0xD8, 0x04] .ia32 (.initial .ia32) 0 3 2 rfl (by decide)
    rfl
  have hp : locate [0xD8, 0x04] .ia32 = .ok ⟨[0xD8, 0x04], .initial .ia32, 0, 0xD8⟩ := rfl
  rw [decode_append_eq_verdict more registerTable hp] at hmore
  exact not_isSettled_of_nil (registerTable_isRuledOut.matching_extend more) hmore

end OpcodeTable
end X86Encoding
