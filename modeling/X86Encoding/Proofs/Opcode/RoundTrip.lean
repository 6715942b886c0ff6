import X86Encoding.Proofs.Byte
import X86Encoding.Proofs.Opcode.Listing
import X86Encoding.Proofs.Opcode.Spelled

/-!
Descriptors are read back from their text, exactly when the text can spell them. What a text
compiles to is always one of these, as long as neither a condition nor memory is asked for.
-/

set_option autoImplicit false

namespace X86Encoding

theorem ImmediateSize.eq_fixed_of_fixed? {s : ImmediateSize} {n : UInt8}
    (h : s.fixed? = some n.toNat) : s = .fixed n := by
  obtain ⟨m, v⟩ := s
  cases v with
  | some v => cases h
  | none =>
    have hm : m = n := UInt8.toNat_inj.1 (Option.some.inj h)
    rw [hm]
    rfl

namespace Assembly

open OpcodeDescriptor

variable {context : Code.Context}

def headFields (f : OpcodeFields) : OpcodeFields :=
  { f with mainByte := 0, form := .noModRM, immediate := .zero, opcodeImmediate := none }

def ofHead (f : OpcodeFields) : Assembly := ⟨headFields f, false, false⟩

theorem addAll_modeTokens (f : OpcodeFields) (x64 : Option Bool) :
    (ofHead { f with x64 := none }).addAll context (modeTokens x64) =
      .ok (ofHead { f with x64 := x64 }) := by
  rcases x64 with _ | _ | _ <;> rfl

theorem addAll_addressTokens (f : OpcodeFields) {size : Option AddressSize}
    (h64 : size = some .a64 → f.x64 = some true) (h16 : size = some .a16 → f.x64 = some false) :
    (ofHead { f with addressSize := none }).addAll context (addressTokens size) =
      .ok (ofHead { f with addressSize := size }) := by
  rcases size with _ | _ | _ | _
  · rfl
  · rw [addressTokens, addAll_singleton]
    exact setMode_eq_ok.2 ⟨by simp [setAddressSize, ofHead, headFields, h16], by
      simp [setAddressSize, ofHead, headFields, h16]⟩
  · rfl
  · rw [addressTokens, addAll_singleton]
    exact setMode_eq_ok.2 ⟨by simp [setAddressSize, ofHead, headFields, h64], by
      simp [setAddressSize, ofHead, headFields, h64]⟩

def legacyHead (f : OpcodeFields) (r : OperandSizeRule) (p : Option SimdPrefix)
    (map : OpcodeMap) : Assembly :=
  ofHead { f with kind := none, operandSize := r, simd := p, map := map }

/-- The part of the rule that stands before the SIMD prefix. -/
def sizeOnly : OperandSizeRule → OperandSizeRule
  | .word => .word
  | .dword => .dword
  | _ => .any

theorem addAll_operandSizeTokens (f : OpcodeFields) (r : OperandSizeRule) :
    (legacyHead f .any none .primary).addAll context (operandSizeTokens r) =
      .ok (legacyHead f (sizeOnly r) none .primary) := by
  cases r <;> rfl

theorem addAll_simdTokens (f : OpcodeFields) (r : OperandSizeRule) (p : Option SimdPrefix) :
    (legacyHead f r none .primary).addAll context (simdTokens p) =
      .ok (legacyHead f r p .primary) := by
  rcases p with _ | _ | _ | _ | _ <;> rfl

theorem addAll_promotionTokens (f : OpcodeFields) (r : OperandSizeRule)
    (p : Option SimdPrefix) :
    (legacyHead f (sizeOnly r) p .primary).addAll context (promotionTokens r) =
      .ok (legacyHead f r p .primary) := by
  cases r <;> rfl

theorem addAll_escapeBytes (f : OpcodeFields) (r : OperandSizeRule) (p : Option SimdPrefix)
    {map : OpcodeMap} (h : map.isXop = false) :
    (legacyHead f r p .primary).addAll context (map.escapeBytes.map .byte) =
      .ok (legacyHead f r p map) := by
  cases map <;> first | rfl | cases h

theorem addAll_legacyTokens {f : OpcodeFields} (hkind : f.kind = none)
    (h : f.map.isXop = false) :
    (legacyHead f .any none .primary).addAll context (legacyTokens f) = .ok (ofHead f) := by
  have hhead : legacyHead f f.operandSize f.simd f.map = ofHead f := by
    rw [legacyHead, ← hkind]
  simp only [legacyTokens, List.append_assoc]
  rw [addAll_append (addAll_operandSizeTokens f f.operandSize),
    addAll_append (addAll_simdTokens f _ f.simd),
    addAll_append (addAll_promotionTokens f f.operandSize f.simd),
    addAll_escapeBytes f _ _ h, hhead]

def startFields (f : OpcodeFields) : OpcodeFields :=
  match f.kind with
  | some _ => f
  | none => { f with operandSize := .any, simd := none, map := .primary }

theorem start_eq (d : OpcodeDescriptor) (hmode : context.longMode = none) :
    start context d.code.vex =
      ofHead { startFields d.fields with x64 := none, addressSize := none } := by
  have hc := d.isConsistent
  cases hkind : d.fields.kind with
  | none =>
    have hvector := hc.vectorSize_eq_none hkind
    simp only [start, code, d.vex_of_kind_eq_none hkind, Except.toOption, startFields, hkind,
      hmode, ofHead, headFields, OpcodeFields.initial, hvector]
  | some kind =>
    obtain ⟨v, hv, hfields⟩ := d.vex_of_kind_eq_some hkind
    have hsome : d.fields.kind ≠ none := by simp [hkind]
    obtain ⟨p, hp⟩ := Option.ne_none_iff_exists'.1 (hc.simd_ne_none hsome)
    have hsize : OperandSizeRule.ofPromotion d.fields.operandSize.promotion? =
        d.fields.operandSize := by
      have hcompatible := hc.isVexCompatible hsome
      cases hr : d.fields.operandSize <;> simp_all [OperandSizeRule.isVexCompatible,
        OperandSizeRule.promotion?, OperandSizeRule.ofPromotion]
    simp only [start, code, hv, Except.toOption, startFields, hkind, hmode, ofHead, headFields,
      OpcodeFields.initial, hfields, hp, hsize, Option.getD_some]

theorem addAll_prefixTokens (d : OpcodeDescriptor) :
    (ofHead (startFields d.fields)).addAll context (prefixTokens d.fields) =
      .ok (ofHead d.fields) := by
  cases hkind : d.fields.kind with
  | none =>
    have hstart : ofHead (startFields d.fields) = legacyHead d.fields .any none .primary := by
      simp only [startFields, hkind, legacyHead]
    simp only [prefixTokens, hkind]
    rw [hstart, addAll_legacyTokens hkind (d.isConsistent.isXop_eq_false hkind)]
  | some kind =>
    simp only [prefixTokens, startFields, hkind]
    rfl

theorem addAll_headTokens (d : OpcodeDescriptor) (hmode : context.longMode = none) :
    (start context d.code.vex).addAll context (headTokens d.fields) = .ok (ofHead d.fields) := by
  have hx64 : (startFields d.fields).x64 = d.fields.x64 := by
    unfold startFields
    split <;> rfl
  have haddress : (startFields d.fields).addressSize = d.fields.addressSize := by
    unfold startFields
    split <;> rfl
  have hhead : ofHead { startFields d.fields with
      x64 := d.fields.x64, addressSize := d.fields.addressSize } =
        ofHead (startFields d.fields) := by
    rw [← hx64, ← haddress]
  rw [start_eq d hmode, headTokens, List.append_assoc,
    addAll_append (addAll_modeTokens { startFields d.fields with addressSize := none } _),
    addAll_append (addAll_addressTokens { startFields d.fields with x64 := d.fields.x64 }
      d.isConsistent.x64_of_a64 d.isConsistent.x64_of_a16), hhead, addAll_prefixTokens]

def ofMain (f : OpcodeFields) : Assembly :=
  ⟨{ f with immediate := .zero, opcodeImmediate := none }, true, f.form != .noModRM⟩

theorem addByte_of_not_isLeadByte {a : Assembly} {b : UInt8} (hmain : a.mainByteSeen = false)
    (h : ¬a.fields.IsLeadByte b) : a.addByte b = .ok (a.setMainByte b) := by
  unfold addByte
  rw [if_pos (by simp [hmain]), leadByte?_eq_none_iff.2 h]

theorem addAll_form {f : OpcodeFields} {t : Token} (hbyte : ¬f.IsLeadByte f.mainByte)
    (hform : f.form ≠ .noModRM)
    (ht : ((ofHead f).setMainByte f.mainByte).add context t =
      ((ofHead f).setMainByte f.mainByte).setForm f.form) :
    (ofHead f).addAll context [.byte f.mainByte, t] = .ok (ofMain f) := by
  have hadd : (ofHead f).add context (.byte f.mainByte) =
      .ok ((ofHead f).setMainByte f.mainByte) :=
    addByte_of_not_isLeadByte rfl hbyte
  have hset : ((ofHead f).setMainByte f.mainByte).setForm f.form = .ok (ofMain f) :=
    setForm_eq_ok.2 ⟨⟨rfl, rfl⟩, by simp [ofHead, headFields, ofMain, setMainByte, hform]⟩
  simp only [addAll, hadd, ht, hset]

theorem addAll_mainTokens {f : OpcodeFields} (hc : f.IsConsistent) (hlead : ¬f.MainByteLeads)
    (hany : ∀ reg, f.form = .regAnyRM reg ∨ f.form = .regMemoryRM reg →
      regForm context.rmKind reg = f.form) :
    (ofHead f).addAll context (mainTokens f) = .ok (ofMain f) := by
  have hbyte : f.form ≠ .mainByteReg → ¬f.IsLeadByte f.mainByte := fun hform hb =>
    hlead ⟨hform, hb⟩
  unfold mainTokens
  -- a form without a ModRM byte leaves its place open, any other takes it
  cases hform : f.form with
  | noModRM =>
    rw [addAll_singleton]
    refine (addByte_of_not_isLeadByte rfl (hbyte (by simp [hform]))).trans ?_
    simp [ofHead, headFields, ofMain, setMainByte, hform]
  | mainByteReg =>
    simp [add, addRegisterByte, ofHead, headFields, ofMain, setMainByte, hform]
  | any =>
    apply addAll_form (hbyte (by simp [hform])) (by simp [hform])
    rw [hform]
    rfl
  | regAnyRM reg =>
    apply addAll_form (hbyte (by simp [hform])) (by simp [hform])
    rw [← hany reg (.inl hform)]
    rfl
  | regMemoryRM reg =>
    apply addAll_form (hbyte (by simp [hform])) (by simp [hform])
    rw [← hany reg (.inr hform)]
    rfl
  | regDirectRM reg =>
    obtain ⟨hge, hrm, hreg⟩ := registerByte_fields (hc.fixedReg_le reg (by rw [hform]; rfl))
    apply addAll_form (hbyte (by simp [hform])) (by simp [hform])
    simp [add, addRegisterByte, setMainByte, hge, hrm, hreg, hform]
  | value b =>
    have hdirect : 0xC0 ≤ b := by
      have hvalue := hc.isDirectValue
      rw [hform] at hvalue
      exact ModRM.isDirect_ofByte_iff.1 hvalue
    apply addAll_form (hbyte (by simp [hform])) (by simp [hform])
    simp [add, addByte, setMainByte, ofHead, hdirect, hform]

theorem addAll_fixedTokens (f : OpcodeFields) (modRMSeen : Bool) {n : Nat} (h : n ≤ 8) :
    (⟨{ f with immediate := .zero }, true, modRMSeen⟩ : Assembly).addAll context
        (fixedTokens n) =
      .ok ⟨{ f with immediate := .fixed (UInt8.ofNat n) }, true, modRMSeen⟩ := by
  match n, h with
  | 0, _ | 1, _ | 2, _ | 3, _ | 4, _ | 5, _ | 6, _ | 7, _ | 8, _ => rfl

theorem addAll_varyingTokens (f : OpcodeFields) (modRMSeen : Bool) (n : UInt8)
    (v : Option VariableImmediate) :
    (⟨{ f with immediate := .fixed n }, true, modRMSeen⟩ : Assembly).addAll context
        (varyingTokens v) =
      .ok ⟨{ f with immediate := ⟨n, v⟩ }, true, modRMSeen⟩ := by
  rcases v with _ | _ | _ <;> rfl

def ofFields (f : OpcodeFields) : Assembly := ⟨f, true, f.form != .noModRM⟩

theorem addAll_opcodeImmediate {f : OpcodeFields} {b : UInt8} (hc : f.IsConsistent)
    (hvalue : f.opcodeImmediate = some b) (himm : ¬f.ImmediateIsModRM) :
    (ofMain f).addAll context [.byte b] = .ok (ofFields f) := by
  have hsize : f.immediate = .fixed 1 :=
    ImmediateSize.eq_fixed_of_fixed? (hc.immediate_fixed (by simp [hvalue]))
  -- the byte is not taken for a ModRM byte
  have hform : ¬(!(f.form != .noModRM) && decide (0xC0 ≤ b)) = true := by
    intro h
    simp only [Bool.and_eq_true, Bool.not_eq_true', bne_eq_false_iff_eq, decide_eq_true_eq] at h
    exact himm ⟨h.1, b, hvalue, h.2⟩
  rw [addAll_singleton]
  show addByte (ofMain f) b = _
  rw [addByte, ofMain, if_neg (by simp), if_neg hform, if_neg (by simp)]
  refine addImmediate_eq_ok.2 ⟨by simp [ImmediateSize.zero], ?_⟩
  have hfields : { f with immediate := .fixed 1, opcodeImmediate := some b } = f := by
    rw [← hsize, ← hvalue]
  exact congrArg (fun g => (⟨g, true, f.form != .noModRM⟩ : Assembly)) hfields

theorem addAll_immediateTokens {f : OpcodeFields} (hc : f.IsConsistent)
    (hsize : f.immediate.fixedBytes ≤ 8) (himm : ¬f.ImmediateIsModRM) :
    (ofMain f).addAll context (immediateTokens f) = .ok (ofFields f) := by
  unfold immediateTokens
  cases hvalue : f.opcodeImmediate with
  | none =>
    have hle : f.immediate.fixedBytes.toNat ≤ 8 := UInt8.le_iff_toNat_le.1 hsize
    have hmain : ofMain f = ⟨{ f with immediate := .zero }, true, f.form != .noModRM⟩ := by
      simp [ofMain, hvalue]
    dsimp only
    rw [hmain, addAll_append (addAll_fixedTokens f _ hle), UInt8.ofNat_toNat,
      addAll_varyingTokens f]
    rfl
  | some b => exact addAll_opcodeImmediate hc hvalue himm

end Assembly

namespace OpcodeDescriptor

open Assembly

variable {context : Code.Context}

/-- Without the ambiguities the tokens compile to the descriptor they were printed from. -/
theorem compile_code (d : OpcodeDescriptor) (hmode : context.longMode = none)
    (hany : ∀ reg, d.fields.form = .regAnyRM reg ∨ d.fields.form = .regMemoryRM reg →
      regForm context.rmKind reg = d.fields.form)
    (hsize : d.fields.immediate.fixedBytes ≤ 8) (hlead : ¬d.fields.MainByteLeads)
    (himm : ¬d.fields.ImmediateIsModRM) : d.code.compile context = .ok d := by
  have hc := d.isConsistent
  have hrun : (start context d.code.vex).addAll context d.code.tokens =
      .ok (ofFields d.fields) := by
    rw [code, List.append_assoc]
    exact (addAll_append (addAll_headTokens d hmode)).trans
      ((addAll_append (addAll_mainTokens hc hlead hany)).trans
        (addAll_immediateTokens hc hsize himm))
  rw [Code.compile, hrun]
  exact d.make_fields

theorem compile_code_default (d : OpcodeDescriptor) (hmemory : ¬d.fields.HasMemoryForm)
    (hsize : d.fields.immediate.fixedBytes ≤ 8) (hlead : ¬d.fields.MainByteLeads)
    (himm : ¬d.fields.ImmediateIsModRM) : d.code.compile .default = .ok d := by
  refine compile_code d rfl ?_ hsize hlead himm
  rintro reg (hform | hform)
  · rw [hform]
    rfl
  · exact absurd ⟨reg, hform⟩ hmemory

/-- The text is read back as the descriptor exactly when it is free of ambiguities. The memory
form needs to be told that the operand is memory. -/
theorem compileText_text (d : OpcodeDescriptor) :
    (Code.compileText d.text .default = .ok d ↔
      ¬(d.fields.HasMemoryForm ∨ 8 < d.fields.immediate.fixedBytes ∨ d.fields.MainByteLeads ∨
        d.fields.ImmediateIsModRM)) ∧
    (d.fields.HasMemoryForm →
      ¬(8 < d.fields.immediate.fixedBytes ∨ d.fields.MainByteLeads) →
        Code.compileText d.text { Code.Context.default with rmKind := some .memory } = .ok d) := by
  simp only [compileText_text_eq, not_or, UInt8.not_lt]
  refine ⟨⟨?_, ?_⟩, ?_⟩
  · intro h
    obtain ⟨hmemory, hsize, hlead, himm⟩ := Code.spelled_of_compile h rfl
    exact ⟨fun hform => absurd (hmemory hform) (by decide), hsize, hlead, himm⟩
  · rintro ⟨hmemory, hsize, hlead, himm⟩
    exact compile_code_default d hmemory hsize hlead himm
  · rintro ⟨reg, hform⟩ ⟨hsize, hlead⟩
    refine compile_code d rfl ?_ hsize hlead ?_
    · rintro reg' (hform' | hform')
      · rw [hform] at hform'
        cases hform'
      · rw [hform']
        rfl
    · rintro ⟨hnone, -⟩
      rw [hform] at hnone
      cases hnone

def loadTable : OpcodeDescriptor :=
  ⟨{ OpcodeFields.initial with map := .escape0F, mainByte := 0x01, form := .regMemoryRM 2 },
    by decide⟩

theorem compileText_text_loadTable :
    loadTable.fields.HasMemoryForm ∧
      ¬(8 < loadTable.fields.immediate.fixedBytes ∨ loadTable.fields.MainByteLeads) ∧
        Code.compileText "0f 01 /2".toList { Code.Context.default with rmKind := some .memory } =
          .ok loadTable := by
  have hform : loadTable.fields.HasMemoryForm := ⟨2, rfl⟩
  have hfree : ¬(8 < loadTable.fields.immediate.fixedBytes ∨ loadTable.fields.MainByteLeads) := by
    rintro (h | ⟨-, -, (⟨h, -⟩ | ⟨-, h | h⟩)⟩)
    · exact absurd h (by decide)
    · cases h
    · exact absurd h (by decide)
    · exact absurd h (by decide)
  exact ⟨hform, hfree, (compileText_text loadTable).2 hform hfree⟩

/-- Whatever the text and the order of its tokens, and whatever else the context asks for: what it
compiles to is printed as a text that compiles to it again. -/
theorem compileText_text_of_compileText {t : Text} {d : OpcodeDescriptor}
    (hmemory : context.rmKind ≠ some .memory) (hcondition : context.condition = none)
    (h : Code.compileText t context = .ok d) : Code.compileText d.text .default = .ok d := by
  unfold Code.compileText at h
  split at h
  · cases h
  · next c hread =>
    -- compiling never sets up an ambiguity, save the memory form, which was not asked for
    obtain ⟨hform, hsize, hlead, himm⟩ := Code.spelled_of_compile h hcondition
    rw [compileText_text_eq]
    exact compile_code_default d (fun hmem => hmemory (hform hmem)) hsize hlead himm

def shuffled : OpcodeDescriptor :=
  ⟨{ OpcodeFields.initial with
      x64 := some true
      simd := some .pF2
      map := .escape0F38
      mainByte := 0xF1
      form := .regDirectRM 3
      immediate := .fixed 1 }, by decide⟩

theorem compileText_text_of_compileText_shuffled :
    Code.compileText "ib,u 0F38 f2i F1 /3 vsibx".toList
        ⟨some true, some .register, none⟩ = .ok shuffled ∧
      shuffled.text = "x64 f2 0f 38 f1 d8+r ib".toList ∧
      Code.compileText "x64 f2 0f 38 f1 d8+r ib".toList .default = .ok shuffled := by
  have h : Code.compileText "ib,u 0F38 f2i F1 /3 vsibx".toList
      ⟨some true, some .register, none⟩ = .ok shuffled := rfl
  have htext : shuffled.text = "x64 f2 0f 38 f1 d8+r ib".toList := by decide
  refine ⟨h, htext, ?_⟩
  rw [← htext]
  exact compileText_text_of_compileText (by decide) rfl h

end OpcodeDescriptor
end X86Encoding
