import X86Encoding.Proofs.Opcode.RoundTrip
import X86Encoding.Proofs.Prefix.LeadBytes
import X86Encoding.Proofs.Table.Meaning

/-!
Code strings of bytes alone, and the same bytes as an instruction. Compiling and reading find the
same SIMD prefix, the same map and the same main byte. What is behind the main byte is told apart
by value when it is compiled, and by place when it is decoded.
-/

set_option autoImplicit false

namespace X86Encoding

/-! ## Where the prefixes end -/

theorem OpcodeMap.not_escape_behind_leading {rest : List UInt8} {b : UInt8}
    (h : rest[(leading rest).2]? = some b) :
    ((leading rest).1 = .primary → b ≠ 0x0F) ∧
      ((leading rest).1 = .escape0F → b ≠ 0x38 ∧ b ≠ 0x3A) := by
  rcases rest with _ | ⟨c, _ | ⟨c', rest⟩⟩
  · cases h
  · rw [leading_singleton] at h ⊢
    by_cases hc : c = 0x0F
    · simp [hc] at h
    · simp [hc] at h ⊢
      exact h ▸ hc
  · rw [leading_cons_cons] at h ⊢
    by_cases hc : c = 0x0F
    · by_cases h38 : c' = 0x38
      · simp [hc, h38]
      · by_cases h3A : c' = 0x3A
        · simp [hc, h3A]
        · simp [hc, h38, h3A] at h ⊢
          exact h ▸ ⟨h38, h3A⟩
    · simp [hc] at h ⊢
      exact h ▸ hc

namespace PrefixState

variable {bytes rest : List UInt8} {mode : Mode} {legacy : PrefixList} {s : PrefixState} {n k : Nat}

theorem Reads.leading_of_extended (h : Reads mode legacy rest s k) (he : s.extended = none) :
    s.map = (OpcodeMap.leading rest).1 ∧ k = (OpcodeMap.leading rest).2 := by
  cases h with
  | plain => exact ⟨rfl, rfl⟩
  | rex => cases he
  | vector => cases he

theorem bytes_eq_of_extended (h : read bytes mode = .ok (s, n)) (hn : n < bytes.length)
    (hextended : s.extended = none) :
    bytes = s.legacy.toList.map LegacyPrefix.byte ++
      (s.map.escapeBytes ++ bytes[n] :: bytes.drop (n + 1)) := by
  obtain ⟨-, -, -, -, ⟨between, hspelled, htake⟩, -⟩ := read_lossless h
  have hvector : s.vector? = none := by rw [vector?, hextended]
  rw [hextended] at hspelled
  cases hspelled
  rw [List.append_nil, escapeBytes, hvector] at htake
  rw [← List.drop_eq_getElem_cons hn, ← List.append_assoc]
  exact (List.take_append_drop n bytes).symm.trans (congrArg (· ++ bytes.drop n) htake)

theorem length_of_extended (h : read bytes mode = .ok (s, n)) (hn : n < bytes.length)
    (hextended : s.extended = none) :
    bytes.length ≤ s.legacy.toList.length + 3 + (bytes.drop (n + 1)).length := by
  obtain ⟨-, k, rfl, hreads⟩ := reads_of_read h
  obtain ⟨-, rfl⟩ := hreads.leading_of_extended hextended
  have htwo := OpcodeMap.leading_size_le_two (bytes.drop s.legacy.toList.length)
  rw [List.length_drop]
  omega

theorem not_isLeadByte_of_read (h : read bytes mode = .ok (s, n)) {b : UInt8}
    (hb : bytes[n]? = some b) (hextended : s.extended = none) {f : OpcodeFields}
    (hmap : f.map = s.map) : ¬f.IsLeadByte b := by
  obtain ⟨-, k, hn, hreads⟩ := reads_of_read h
  obtain ⟨hs, rfl⟩ := hreads.leading_of_extended hextended
  have hbehind := hb
  rw [hn, ← List.getElem?_drop] at hbehind
  obtain ⟨hprimary, hescape⟩ := OpcodeMap.not_escape_behind_leading hbehind
  rw [← hs] at hprimary hescape
  rintro ⟨-, ⟨hf, hlead⟩ | ⟨hf, hlead⟩⟩
  · -- in the primary map this is the byte that ended the run of legacy prefixes
    have hf := hmap.symm.trans hf
    obtain ⟨-, -, -, -, -, c, hc, hplain⟩ := read_lossless h
    rw [← read_plain h hextended hf, hb, Option.some_inj] at hc
    rw [← hc] at hplain
    rcases hlead with rfl | rfl | rfl | rfl
    · exact hprimary hf rfl
    all_goals cases hplain
  · obtain ⟨h38, h3A⟩ := hescape (hmap.symm.trans hf)
    exact hlead.elim h38 h3A

end PrefixState

/-! ## Compiling -/

namespace Assembly

variable {context : Code.Context} {f : OpcodeFields} {r : OperandSizeRule} {a a' : Assembly}
  {b : UInt8}

theorem addAll_legacyBytes {ps : List LegacyPrefix}
    (hps : ∀ p ∈ ps, p ∈ [.operandSize, .repne, .rep]) {ts : List Token}
    (h : (legacyHead f r none .primary).addAll context
      ((ps.map LegacyPrefix.byte).map .byte ++ ts) = .ok a') :
    ps.length ≤ 1 ∧
      (legacyHead f r (ps.head?.bind LegacyPrefix.simd?) .primary).addAll context ts = .ok a' := by
  match ps with
  | [] => exact ⟨Nat.zero_le 1, h⟩
  | [p] =>
    refine ⟨Nat.le_refl 1, ?_⟩
    have hp := hps p List.mem_cons_self
    simp only [List.mem_cons, List.not_mem_nil, or_false] at hp
    rcases hp with rfl | rfl | rfl <;> exact h
  | p :: q :: ps =>
    have hp := hps p List.mem_cons_self
    have hq := hps q (List.mem_cons_of_mem p List.mem_cons_self)
    simp only [List.mem_cons, List.not_mem_nil, or_false] at hp hq
    rcases hp with rfl | rfl | rfl <;> rcases hq with rfl | rfl | rfl <;> cases h

theorem addByte_behind (hmain : a.mainByteSeen = true) (h : a.addByte b = .ok a') :
    (a.modRMSeen = false ∧ 0xC0 ≤ b ∧
      a' = { a with fields.form := .value b, modRMSeen := true }) ∨
    ((a.modRMSeen = true ∨ b < 0xC0) ∧ a.fields.opcodeImmediate = none ∧
      a' = { a with
        fields.opcodeImmediate := some b
        fields.immediate.fixedBytes := a.fields.immediate.fixedBytes + 1 }) := by
  unfold addByte at h
  rw [if_neg (by simp [hmain])] at h
  split at h
  · next hvalue =>
    rw [Bool.and_eq_true, Bool.not_eq_true', decide_eq_true_eq] at hvalue
    obtain ⟨-, rfl⟩ := setForm_eq_ok.1 h
    exact .inl ⟨hvalue.1, hvalue.2, rfl⟩
  · next hvalue =>
    obtain ⟨hnone, h⟩ := ite_fail_eq_ok.1 h
    obtain ⟨-, rfl⟩ := addImmediate_eq_ok.1 h
    refine .inr ⟨?_, by simpa using hnone, rfl⟩
    rw [Bool.and_eq_true, Bool.not_eq_true', decide_eq_true_eq, not_and, UInt8.not_le] at hvalue
    cases hseen : a.modRMSeen with
    | true => exact .inl rfl
    | false => exact .inr (hvalue hseen)

theorem addAll_full (hmain : a.mainByteSeen = true) (hmodRM : a.modRMSeen = true)
    (hvalue : a.fields.opcodeImmediate ≠ none) {tail : List UInt8}
    (h : a.addAll context (tail.map .byte) = .ok a') : tail = [] ∧ a' = a := by
  cases tail with
  | nil =>
    cases h
    exact ⟨rfl, rfl⟩
  | cons t tail =>
    obtain ⟨a₁, ha₁, -⟩ := addAll_cons_eq_ok.1 h
    obtain ⟨hfree, -⟩ | ⟨-, hnone, -⟩ := addByte_behind hmain ha₁
    · cases hmodRM.symm.trans hfree
    · exact absurd hnone hvalue

end Assembly

/-- What bytes behind the main byte are compiled to: the form, and the value of the immediate. -/
inductive Trailing : List UInt8 → AddressingForm → Option UInt8 → Prop where
  | nothing : Trailing [] .noModRM none
  | modRM {m : UInt8} : 0xC0 ≤ m → Trailing [m] (.value m) none
  | immediate {i : UInt8} : i < 0xC0 → Trailing [i] .noModRM (some i)
  | both {m : UInt8} (i : UInt8) : 0xC0 ≤ m → Trailing [m, i] (.value m) (some i)
  /-- The only order in which the bytes are not decoded. -/
  | swapped {i m : UInt8} : i < 0xC0 → 0xC0 ≤ m → Trailing [i, m] (.value m) (some i)

namespace Trailing

variable {tail : List UInt8} {form : AddressingForm} {value : Option UInt8}

theorem length_le_two (h : Trailing tail form value) : tail.length ≤ 2 := by
  cases h <;> simp

theorem form_ne_mainByteReg (h : Trailing tail form value) : form ≠ .mainByteReg := by
  cases h <;> exact nofun

end Trailing

namespace Assembly

variable {context : Code.Context} {a : Assembly}

/-- There is room for two bytes, one of each kind. -/
theorem trailing_of_addAll (f : OpcodeFields) {tail : List UInt8}
    (h : (⟨{ f with form := .noModRM, immediate := .zero, opcodeImmediate := none }, true, false⟩ :
      Assembly).addAll context (tail.map .byte) = .ok a) :
    ∃ form value, Trailing tail form value ∧ a.fields = { f with
      form := form
      immediate := .fixed (if value.isSome then 1 else 0)
      opcodeImmediate := value } := by
  match tail with
  | [] =>
    cases h
    exact ⟨_, _, .nothing, rfl⟩
  | [t] =>
    obtain ⟨b, hb, h⟩ := addAll_cons_eq_ok.1 h
    cases h
    obtain ⟨-, hge, rfl⟩ | ⟨hlt, -, rfl⟩ := addByte_behind rfl hb
    · exact ⟨_, _, .modRM hge, rfl⟩
    · exact ⟨_, _, .immediate (hlt.resolve_left Bool.false_ne_true), rfl⟩
  | t :: u :: tail =>
    obtain ⟨b, hb, h⟩ := addAll_cons_eq_ok.1 h
    obtain ⟨c, hc, h⟩ := addAll_cons_eq_ok.1 h
    obtain ⟨-, hge, rfl⟩ | ⟨hlt, -, rfl⟩ := addByte_behind rfl hb
    · obtain ⟨hfree, -⟩ | ⟨-, -, rfl⟩ := addByte_behind rfl hc
      · cases hfree
      · obtain ⟨rfl, rfl⟩ := addAll_full rfl rfl (Option.some_ne_none u) h
        exact ⟨_, _, .both u hge, rfl⟩
    · obtain ⟨-, hge, rfl⟩ | ⟨-, hnone, -⟩ := addByte_behind rfl hc
      · obtain ⟨rfl, rfl⟩ := addAll_full rfl rfl (Option.some_ne_none t) h
        exact ⟨_, _, .swapped (hlt.resolve_left Bool.false_ne_true) hge, rfl⟩
      · cases hnone

end Assembly

theorem PrefixList.simd_of_length_le_one {l : PrefixList} (hlen : l.toList.length ≤ 1)
    (hsimd : ∀ p ∈ l.toList, p ∈ [.operandSize, .repne, .rep]) :
    l.toList.head?.bind LegacyPrefix.simd? = if l.toList = [] then none else some l.simd := by
  unfold simd
  generalize l.toList = ps at hlen hsimd
  match ps with
  | [] => rfl
  | [p] =>
    have hp := hsimd p List.mem_cons_self
    simp only [List.mem_cons, List.not_mem_nil, or_false] at hp
    rcases hp with rfl | rfl | rfl <;> rfl

namespace Code

open Assembly

/-- What a code string of bytes is compiled to, by how the same bytes are read. -/
theorem fields_of_compile_bytes {bytes : List UInt8} {d : OpcodeDescriptor} {mode : Mode}
    {s : PrefixState} {n : Nat} (hcompile : compile ⟨bytes.map .byte, none⟩ .default = .ok d)
    (h : PrefixState.read bytes mode = .ok (s, n)) (hn : n < bytes.length)
    (hextended : s.extended = none)
    (hsimd : ∀ p ∈ s.legacy.toList, p ∈ [.operandSize, .repne, .rep]) :
    s.legacy.toList.length ≤ 1 ∧
      ∃ form value, Trailing (bytes.drop (n + 1)) form value ∧ d.fields =
        { OpcodeFields.initial with
          simd := if s.legacy.toList = [] then none else some s.simd
          map := s.map
          mainByte := bytes[n]
          form := form
          immediate := .fixed (if value.isSome then 1 else 0)
          opcodeImmediate := value } := by
  obtain ⟨-, -, -, hwf, -⟩ := PrefixState.read_lossless h
  have hvector : s.vector? = none := by rw [PrefixState.vector?, hextended]
  have hxop : s.map.isXop = false := by
    have hmap := hwf.map hvector
    simp only [List.mem_cons, List.not_mem_nil, or_false] at hmap
    rcases hmap with hmap | hmap | hmap | hmap <;> rw [hmap] <;> rfl
  have htokens : bytes.map Token.byte = (s.legacy.toList.map LegacyPrefix.byte).map .byte ++
      (s.map.escapeBytes.map .byte ++ .byte bytes[n] :: (bytes.drop (n + 1)).map .byte) := by
    have hbytes := congrArg (List.map Token.byte) (PrefixState.bytes_eq_of_extended h hn hextended)
    rwa [List.map_append, List.map_append, List.map_cons] at hbytes
  obtain ⟨a, hrun, -, hfields⟩ := assembly_of_compile hcompile
  have hstart : start .default none = legacyHead .initial .any none .primary := rfl
  rw [hstart, htokens] at hrun
  obtain ⟨hlen, hrun⟩ := addAll_legacyBytes hsimd hrun
  refine ⟨hlen, ?_⟩
  have hselected : s.simd = s.legacy.simd := by rw [PrefixState.simd, hvector]
  rw [PrefixList.simd_of_length_le_one hlen hsimd, ← hselected,
    addAll_append (addAll_escapeBytes _ _ _ hxop)] at hrun
  obtain ⟨b, hb, hrun⟩ := addAll_cons_eq_ok.1 hrun
  have hmain : ¬(legacyHead .initial .any (if s.legacy.toList = [] then none else some s.simd)
      s.map).fields.IsLeadByte bytes[n] :=
    PrefixState.not_isLeadByte_of_read h (List.getElem?_eq_getElem hn) hextended rfl
  obtain rfl := Except.ok.inj ((addByte_of_not_isLeadByte rfl hmain).symm.trans hb)
  obtain ⟨form, value, htail, ha⟩ := trailing_of_addAll { OpcodeFields.initial with
    simd := if s.legacy.toList = [] then none else some s.simd
    map := s.map
    mainByte := bytes[n] } hrun
  exact ⟨form, value, htail, hfields.trans ha⟩

end Code

/-! ## Decoding -/

namespace DecodePoint

variable {p : DecodePoint} {d : OpcodeDescriptor} {e : TableEntry}

theorem immediateStart_of_direct {m : UInt8} {rest : List UInt8} (h : d.hasModRM = true)
    (hb : p.bytes.drop p.opcodeEnd = m :: rest) (hm : 0xC0 ≤ m) :
    p.wantsSib d = false ∧ p.immediateStart d = p.opcodeEnd + 1 := by
  have hmod : (ModRM.ofByte m).mod = 3 := beq_iff_eq.1 (ModRM.isDirect_ofByte_iff.2 hm)
  have hmodRM := modRMOf_of_drop h hb
  have hsib : p.wantsSib d = false := by simp [wantsSib, hmodRM, ModRM.needsSib, hmod]
  refine ⟨hsib, ?_⟩
  simp [immediateStart, hsib, h, displacementOf, hmodRM, hmod, ModRM.displacementSize]

/-- An entry whose only immediate is a byte of the opcode matches, to the end of the input, where
that byte is the last one. -/
theorem matches_to_end {value : Option UInt8} (hcandidate : p.IsCandidate e)
    (himm : e.opcode.fields.immediate = .fixed (if value.isSome then 1 else 0))
    (hvalue : e.opcode.fields.opcodeImmediate = value)
    (hmodRM : e.opcode.hasModRM = true → p.opcodeEnd < p.bytes.length)
    (hsib : p.wantsSib e.opcode = false)
    (hadmits : e.opcode.fields.form.admits (p.modRMOf e.opcode) = true)
    (hrest : p.bytes.drop (p.immediateStart e.opcode) = value.toList)
    (hstart : p.immediateStart e.opcode ≤ p.bytes.length) :
    p.Matches e ∧ p.lengthOf e.opcode = p.bytes.length := by
  have hplace : p.bytes[p.immediateStart e.opcode]? = value := by
    rw [← List.head?_drop, hrest]
    cases value <;> rfl
  have hcount : p.bytes.length = p.immediateStart e.opcode + value.toList.length := by
    rw [← hrest, List.length_drop, Nat.add_sub_cancel' hstart]
  have hfixed : e.opcode.fields.immediate.fixed? = some value.toList.length := by
    rw [himm]
    cases value <;> rfl
  have hbytes : p.immediateBytes e.opcode = value.toList.length := by
    rw [immediateBytes, himm]
    cases value <;> rfl
  have himm8 : p.imm8Of e.opcode = value := by
    rw [imm8Of, hfixed, hplace]
    cases value <;> rfl
  refine ⟨⟨⟨hmodRM, fun h => absurd h (by simp [hsib]), fun h => ?_⟩, ?_⟩, ?_⟩
  · rw [hfixed, Option.some_inj] at h
    omega
  · rw [OpcodeDescriptor.accepts, hcandidate, hadmits, himm8, hfixed, hvalue]
    cases value <;> simp
  · rw [lengthOf, hbytes, hcount]

section Trailing

variable {value : Option UInt8} (hcandidate : p.IsCandidate e)
  (himm : e.opcode.fields.immediate = .fixed (if value.isSome then 1 else 0))
  (hvalue : e.opcode.fields.opcodeImmediate = value) (hend : p.opcodeEnd ≤ p.bytes.length)
include hcandidate himm hvalue hend

theorem matches_without_modRM (hform : e.opcode.fields.form = .noModRM)
    (hdrop : p.bytes.drop p.opcodeEnd = value.toList) :
    p.Matches e ∧ p.lengthOf e.opcode = p.bytes.length := by
  have hnot : e.opcode.hasModRM = false := by
    rw [OpcodeDescriptor.hasModRM, hform]
    rfl
  have hstart := immediateStart_of_not (p := p) hnot
  have hmodRM := modRMOf_of_not (p := p) hnot
  refine matches_to_end hcandidate himm hvalue (by simp [hnot]) ?_ ?_ ?_ ?_
  · rw [wantsSib, hmodRM, Option.any_none]
  · rw [hmodRM, hform]
    rfl
  · rwa [hstart]
  · rwa [hstart]

theorem matches_with_modRM {m : UInt8} (hm : 0xC0 ≤ m) (hform : e.opcode.fields.form = .value m)
    (hdrop : p.bytes.drop p.opcodeEnd = m :: value.toList) :
    p.Matches e ∧ p.lengthOf e.opcode = p.bytes.length := by
  have hhas : e.opcode.hasModRM = true := by
    rw [OpcodeDescriptor.hasModRM, hform]
    rfl
  have hlt : p.opcodeEnd < p.bytes.length := by
    have hlength := congrArg List.length hdrop
    rw [List.length_drop, List.length_cons] at hlength
    omega
  obtain ⟨hsib, hstart⟩ := immediateStart_of_direct hhas hdrop hm
  refine matches_to_end hcandidate himm hvalue (fun _ => hlt) hsib ?_ ?_ ?_
  · simp [modRMOf_of_drop hhas hdrop, hform, AddressingForm.admits]
  · rw [hstart, ← List.drop_drop, hdrop]
    rfl
  · rwa [hstart]

/-- All that bytes can be compiled to is decoded in the same bytes, save for a ModRM byte that
stands behind the immediate. -/
theorem matches_iff_of_trailing {tail : List UInt8} {form : AddressingForm}
    (h : Trailing tail form value) (hform : e.opcode.fields.form = form)
    (hdrop : p.bytes.drop p.opcodeEnd = tail) :
    p.Matches e ∧ p.lengthOf e.opcode = p.bytes.length ↔
      ¬∃ a b, tail = [a, b] ∧ a < 0xC0 := by
  cases h with
  | nothing | immediate =>
    refine iff_of_true (matches_without_modRM hcandidate himm hvalue hend hform hdrop) ?_
    rintro ⟨a, b, hab, -⟩
    cases hab
  | modRM hm =>
    refine iff_of_true (matches_with_modRM hcandidate himm hvalue hend hm hform hdrop) ?_
    rintro ⟨a, b, hab, -⟩
    cases hab
  | both i hm =>
    refine iff_of_true (matches_with_modRM hcandidate himm hvalue hend hm hform hdrop) ?_
    rintro ⟨a, b, hab, ha⟩
    cases hab
    exact UInt8.not_lt.2 hm ha
  | @swapped i m hi hm =>
    refine iff_of_false ?_ (not_not_intro ⟨i, m, rfl, hi⟩)
    rintro ⟨⟨-, haccepts⟩, -⟩
    have hhas : e.opcode.hasModRM = true := by
      rw [OpcodeDescriptor.hasModRM, hform]
      rfl
    -- the immediate is decoded as the ModRM byte
    rw [modRMOf_of_drop hhas hdrop] at haccepts
    simp only [OpcodeDescriptor.accepts, hform, AddressingForm.admits, ModRM.toByte_ofByte,
      Bool.and_eq_true, beq_iff_eq] at haccepts
    have him : i = m := haccepts.1.1.2
    exact UInt8.not_lt.2 hm (him ▸ hi)

end Trailing

end DecodePoint

namespace OpcodeTable

variable {bytes : List UInt8} {d : OpcodeDescriptor} {mode : Mode} {s : PrefixState} {n : Nat}

theorem decode_singleton_iff (e : TableEntry) (h : PrefixState.read bytes mode = .ok (s, n))
    (hn : n < bytes.length) (hmax : bytes.length ≤ 15) :
    (∃ i, (⟨[e]⟩ : OpcodeTable).decode bytes mode = .ok i ∧ i.length = bytes.length) ↔
      (⟨bytes, s, n, bytes[n]⟩ : DecodePoint).Matches e ∧
        (⟨bytes, s, n, bytes[n]⟩ : DecodePoint).lengthOf e.opcode = bytes.length := by
  obtain ⟨hdecode, -⟩ := decode_meaning ⟨[e]⟩ h hn
  constructor
  · rintro ⟨i, hi, hlength⟩
    obtain ⟨first, rest, hmatching, -, -, -, rfl⟩ := (hdecode i).1 hi
    have hfirst : first ∈ matching ⟨[e]⟩ ⟨bytes, s, n, bytes[n]⟩ := by
      rw [hmatching]
      exact List.mem_cons_self
    obtain ⟨hmem, hmatches⟩ := mem_matching.1 hfirst
    obtain rfl := List.mem_singleton.1 hmem
    exact ⟨hmatches, hlength⟩
  · rintro ⟨hmatches, hlength⟩
    have hmatching : matching ⟨[e]⟩ ⟨bytes, s, n, bytes[n]⟩ = [e] := by
      rw [matching, List.filter_cons_of_pos (by simpa using hmatches), List.filter_nil]
    refine ⟨_, (hdecode _).2 ⟨e, [], hmatching, ?_, ?_, ?_, rfl⟩, hlength⟩
    · rw [hmatching]
      intro e' he'
      rw [List.mem_singleton.1 he']
    · exact Nat.le_trans (Nat.le_of_eq hlength) hmax
    · exact Nat.le_of_eq hlength

/-- Bytes that are compiled are read with the SIMD prefix, the map and the main byte that they have
in the code string, and decoded whole, unless a ModRM byte is written behind the immediate. -/
theorem decode_literal (mnemonic : Text)
    (hcompile : Code.compile ⟨bytes.map .byte, none⟩ .default = .ok d)
    (h : PrefixState.read bytes mode = .ok (s, n)) (hn : n < bytes.length)
    (hextended : s.extended = none)
    (hsimd : ∀ p ∈ s.legacy.toList, p ∈ [.operandSize, .repne, .rep]) :
    d.fields.map = s.map ∧ d.fields.mainByte = bytes[n] ∧
      d.fields.simd = (if s.legacy.toList = [] then none else some s.simd) ∧
      ((∃ i, (⟨[⟨mnemonic, d⟩]⟩ : OpcodeTable).decode bytes mode = .ok i ∧
          i.length = bytes.length) ↔
        ¬∃ a b, bytes.drop (n + 1) = [a, b] ∧ a < 0xC0) := by
  obtain ⟨hlen, form, value, htail, hfields⟩ :=
    Code.fields_of_compile_bytes hcompile h hn hextended hsimd
  have hform : d.fields.form = form := by rw [hfields]
  have himm : d.fields.immediate = .fixed (if value.isSome then 1 else 0) := by rw [hfields]
  have hvalue : d.fields.opcodeImmediate = value := by rw [hfields]
  refine ⟨by rw [hfields], by rw [hfields], by rw [hfields], ?_⟩
  have hmax : bytes.length ≤ 15 := by
    have hescape := PrefixState.length_of_extended h hn hextended
    have htwo := htail.length_le_two
    omega
  have hcandidate : d.acceptsMainByte s bytes[n] = true := by
    have hmask : d.mainByteMask = -1 :=
      AddressingForm.mainByteMask_of_ne (by rw [hform]; exact htail.form_ne_mainByteReg)
    have hkind : s.kind? = none := by
      rw [PrefixState.kind?, PrefixState.vector?, hextended]
      rfl
    rw [OpcodeDescriptor.acceptsMainByte, OpcodeDescriptor.validIn, hmask, hkind,
      UInt8.and_neg_one, hfields]
    by_cases hlegacy : s.legacy.toList = [] <;>
      simp [hlegacy, OpcodeFields.initial, OperandSizeRule.admits]
  rw [decode_singleton_iff _ h hn hmax]
  exact DecodePoint.matches_iff_of_trailing (p := ⟨bytes, s, n, bytes[n]⟩) (e := ⟨mnemonic, d⟩)
    hcandidate himm hvalue hn htail hform rfl

theorem decode_literal_swapped :
    (∃ d s i, Code.compile ⟨[.byte 0x66, .byte 0x0F, .byte 0x01, .byte 0xC1, .byte 0x0A], none⟩
        .default = .ok d ∧
      PrefixState.read [0x66, 0x0F, 0x01, 0xC1, 0x0A] .x64 = .ok (s, 2) ∧
      d.fields.map = s.map ∧ d.fields.mainByte = 0x01 ∧ d.fields.simd = some s.simd ∧
      (⟨[⟨[], d⟩]⟩ : OpcodeTable).decode [0x66, 0x0F, 0x01, 0xC1, 0x0A] .x64 = .ok i ∧
      i.length = 5) ∧
    ∃ d s, Code.compile ⟨[.byte 0xD5, .byte 0x0A, .byte 0xC1], none⟩ .default = .ok d ∧
      PrefixState.read [0xD5, 0x0A, 0xC1] .x64 = .ok (s, 0) ∧
      ¬∃ i, (⟨[⟨[], d⟩]⟩ : OpcodeTable).decode [0xD5, 0x0A, 0xC1] .x64 = .ok i ∧
        i.length = 3 := by
  constructor
  · obtain ⟨d, hd⟩ : ∃ d, Code.compile ⟨([0x66, 0x0F, 0x01, 0xC1, 0x0A] : List UInt8).map .byte,
      none⟩ .default = .ok d := ⟨_, rfl⟩
    obtain ⟨s, hs, hextended, hlegacy⟩ : ∃ s,
        PrefixState.read [0x66, 0x0F, 0x01, 0xC1, 0x0A] .x64 = .ok (s, 2) ∧
          s.extended = none ∧ s.legacy.toList = [.operandSize] := ⟨_, rfl, rfl, by decide⟩
    obtain ⟨hmap, hmain, hsimd, hdecode⟩ :=
      decode_literal [] hd hs (by decide) hextended (by rw [hlegacy]; decide)
    rw [hlegacy, if_neg (by decide)] at hsimd
    obtain ⟨i, hi, hlength⟩ := hdecode.2 (by
      rintro ⟨a, b, hab, ha⟩
      cases hab
      exact absurd ha (by decide))
    exact ⟨d, s, i, hd, hs, hmap, hmain, hsimd, hi, hlength⟩
  · obtain ⟨d, hd⟩ : ∃ d, Code.compile ⟨([0xD5, 0x0A, 0xC1] : List UInt8).map .byte, none⟩
      .default = .ok d := ⟨_, rfl⟩
    obtain ⟨s, hs, hextended, hlegacy⟩ : ∃ s,
        PrefixState.read [0xD5, 0x0A, 0xC1] .x64 = .ok (s, 0) ∧
          s.extended = none ∧ s.legacy.toList = [] := ⟨_, rfl, rfl, by decide⟩
    obtain ⟨-, -, -, hdecode⟩ :=
      decode_literal [] hd hs (by decide) hextended (by rw [hlegacy]; simp)
    exact ⟨d, s, hd, hs, fun hi => hdecode.1 hi ⟨0x0A, 0xC1, rfl, by decide⟩⟩

end OpcodeTable

end X86Encoding
