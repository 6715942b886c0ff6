import X86Encoding.Code.Assembly
import X86Encoding.Opcode.Printing
import X86Encoding.Proofs.Code.Sequence

set_option autoImplicit false

namespace X86Encoding.OpcodeDescriptor

def modeTokens : Option Bool → List Token
  | some true => [.x64]
  | some false => [.ia32]
  | none => []

def addressTokens : Option AddressSize → List Token
  | some .a16 => [.a16]
  | some .a32 => [.a32]
  | some .a64 => [.a64]
  | none => []

def operandSizeTokens : OperandSizeRule → List Token
  | .word => [.o16]
  | .dword => [.o32]
  | _ => []

def simdTokens : Option SimdPrefix → List Token
  | none => []
  | some .np => [.noSimd]
  | some .p66 => [.byte 0x66]
  | some .pF3 => [.byte 0xF3]
  | some .pF2 => [.byte 0xF2]

def promotionTokens : OperandSizeRule → List Token
  | .promotion => [.rexW]
  | .noPromotion => [.noRexW]
  | _ => []

def legacyTokens (f : OpcodeFields) : List Token :=
  operandSizeTokens f.operandSize ++ simdTokens f.simd ++ promotionTokens f.operandSize ++
    f.map.escapeBytes.map .byte

def prefixTokens (f : OpcodeFields) : List Token :=
  match f.kind with
  | some _ => [.vex]
  | none => legacyTokens f

def mainTokens (f : OpcodeFields) : List Token :=
  match f.form with
  | .noModRM => [.byte f.mainByte]
  | .mainByteReg => [.bytePlusRegister f.mainByte]
  | .any => [.byte f.mainByte, .modRM]
  | .regAnyRM reg | .regMemoryRM reg => [.byte f.mainByte, .modRMReg reg]
  | .regDirectRM reg => [.byte f.mainByte, .bytePlusRegister ((0xC0 : UInt8) ||| reg <<< 3)]
  | .value b => [.byte f.mainByte, .byte b]

def fixedTokens (n : Nat) : List Token :=
  List.replicate (n / 8) .iq ++ List.replicate (n % 8 / 4) .id ++
    List.replicate (n % 4 / 2) .iw ++ List.replicate (n % 2) .ib

def varyingTokens : Option VariableImmediate → List Token
  | none => []
  | some .wordOrDword => [.iwd]
  | some .wordDwordOrQword => [.iwdq]

def immediateTokens (f : OpcodeFields) : List Token :=
  match f.opcodeImmediate with
  | some b => [.byte b]
  | none => fixedTokens f.immediate.fixedBytes.toNat ++ varyingTokens f.immediate.varying

def headTokens (f : OpcodeFields) : List Token :=
  modeTokens f.x64 ++ addressTokens f.addressSize ++ prefixTokens f

def code (d : OpcodeDescriptor) : Code :=
  ⟨headTokens d.fields ++ mainTokens d.fields ++ immediateTokens d.fields, d.vex.toOption⟩

@[simp] theorem modeTokens_words (vex : Option VexDescriptor) (x64 : Option Bool) :
    (modeTokens x64).map (Code.word vex) = modeParts x64 := by
  rcases x64 with _ | _ | _ <;> rfl

@[simp] theorem addressTokens_words (vex : Option VexDescriptor) (size : Option AddressSize) :
    (addressTokens size).map (Code.word vex) = addressParts size := by
  rcases size with _ | _ | _ | _ <;> rfl

@[simp] theorem legacyTokens_words (vex : Option VexDescriptor) (f : OpcodeFields) :
    (legacyTokens f).map (Code.word vex) = legacyParts f := by
  have hsize : (operandSizeTokens f.operandSize).map (Code.word vex) =
      operandSizeParts f.operandSize := by
    cases f.operandSize <;> rfl
  have hsimd : (simdTokens f.simd).map (Code.word vex) =
      (f.simd.map SimdPrefix.token).toList := by
    rcases f.simd with _ | _ | _ | _ | _ <;> rfl
  have hpromotion : (promotionTokens f.operandSize).map (Code.word vex) =
      promotionParts f.operandSize := by
    cases f.operandSize <;> rfl
  simp only [legacyTokens, legacyParts, List.map_append, hsize, hsimd, hpromotion, List.map_map]
  rfl

@[simp] theorem prefixTokens_words (d : OpcodeDescriptor) :
    (prefixTokens d.fields).map (Code.word d.vex.toOption) = d.prefixParts := by
  cases hkind : d.fields.kind with
  | none =>
    simp [prefixTokens, prefixParts, hkind, d.vex_of_kind_eq_none hkind]
  | some kind =>
    obtain ⟨v, hv, -⟩ := d.vex_of_kind_eq_some hkind
    simp only [prefixTokens, prefixParts, hkind, hv]
    rfl

@[simp] theorem mainTokens_words (vex : Option VexDescriptor) (f : OpcodeFields) :
    (mainTokens f).map (Code.word vex) = mainParts f := by
  unfold mainTokens mainParts
  cases f.form <;> rfl

@[simp] theorem immediateTokens_words (vex : Option VexDescriptor) (f : OpcodeFields) :
    (immediateTokens f).map (Code.word vex) = immediateParts f := by
  have hvarying : (varyingTokens f.immediate.varying).map (Code.word vex) =
      (f.immediate.varying.map VariableImmediate.token).toList := by
    rcases f.immediate.varying with _ | _ | _ <;> rfl
  unfold immediateTokens immediateParts
  cases f.opcodeImmediate with
  | none =>
    simp only [fixedTokens, ImmediateSize.tokens, ImmediateSize.fixedTokens, List.map_append,
      List.map_replicate, hvarying]
    rfl
  | some b => rfl

theorem text_code (d : OpcodeDescriptor) : d.code.text = d.text := by
  simp [Code.text, code, headTokens, text, parts]

def IsPlain (ts : List Token) : Prop := .vex ∉ ts ∧ ∀ reg, .modRMReg reg ∉ ts

theorem IsPlain.append {ts us : List Token} (ht : IsPlain ts) (hu : IsPlain us) :
    IsPlain (ts ++ us) := by
  refine ⟨?_, fun reg => ?_⟩
  · simp [ht.1, hu.1]
  · simp [ht.2 reg, hu.2 reg]

theorem isPlain_map_byte (bytes : List UInt8) : IsPlain (bytes.map .byte) := by
  constructor <;> simp

theorem isPlain_replicate {t : Token} (n : Nat) (h : IsPlain [t]) :
    IsPlain (List.replicate n t) := by
  refine ⟨fun hmem => h.1 ?_, fun reg hmem => h.2 reg ?_⟩
  · rw [← List.eq_of_mem_replicate hmem]
    exact List.mem_cons_self
  · rw [← List.eq_of_mem_replicate hmem]
    exact List.mem_cons_self

theorem isPlain_modeTokens (x64 : Option Bool) : IsPlain (modeTokens x64) := by
  rcases x64 with _ | _ | _ <;> constructor <;> simp [modeTokens]

theorem isPlain_addressTokens (size : Option AddressSize) : IsPlain (addressTokens size) := by
  rcases size with _ | _ | _ | _ <;> constructor <;> simp [addressTokens]

theorem isPlain_legacyTokens (f : OpcodeFields) : IsPlain (legacyTokens f) := by
  have hsize : IsPlain (operandSizeTokens f.operandSize) := by
    cases f.operandSize <;> constructor <;> simp [operandSizeTokens]
  have hsimd : IsPlain (simdTokens f.simd) := by
    rcases f.simd with _ | _ | _ | _ | _ <;> constructor <;> simp [simdTokens]
  have hpromotion : IsPlain (promotionTokens f.operandSize) := by
    cases f.operandSize <;> constructor <;> simp [promotionTokens]
  exact ((hsize.append hsimd).append hpromotion).append (isPlain_map_byte _)

theorem isPlain_immediateTokens (f : OpcodeFields) : IsPlain (immediateTokens f) := by
  have hvarying : IsPlain (varyingTokens f.immediate.varying) := by
    rcases f.immediate.varying with _ | _ | _ <;> constructor <;> simp [varyingTokens]
  unfold immediateTokens
  cases f.opcodeImmediate with
  | some b => exact isPlain_map_byte [b]
  | none =>
    refine IsPlain.append (((IsPlain.append ?_ ?_).append ?_).append ?_) hvarying <;>
      exact isPlain_replicate _ (by constructor <;> simp)

theorem digit_of_mem_mainTokens {f : OpcodeFields} {reg : UInt8}
    (h : .modRMReg reg ∈ mainTokens f) : f.form.fixedReg? = some reg := by
  unfold mainTokens at h
  cases hform : f.form <;> simp_all [AddressingForm.fixedReg?]

theorem vex_not_mem_mainTokens (f : OpcodeFields) : .vex ∉ mainTokens f := by
  unfold mainTokens
  cases f.form <;> simp

theorem digit_not_mem_prefixTokens (f : OpcodeFields) (reg : UInt8) :
    .modRMReg reg ∉ prefixTokens f := by
  unfold prefixTokens
  cases f.kind with
  | none => exact (isPlain_legacyTokens f).2 reg
  | some kind => simp

theorem count_vex_prefixTokens (d : OpcodeDescriptor) :
    (prefixTokens d.fields).count .vex = if d.code.vex.isSome then 1 else 0 := by
  cases hkind : d.fields.kind with
  | none =>
    have hplain := List.count_eq_zero.2 (isPlain_legacyTokens d.fields).1
    simp only [prefixTokens, hkind, code, d.vex_of_kind_eq_none hkind, hplain]
    rfl
  | some kind =>
    obtain ⟨v, hv, -⟩ := d.vex_of_kind_eq_some hkind
    simp only [prefixTokens, hkind, code, hv]
    rfl

theorem isReadable_code (d : OpcodeDescriptor) : d.code.IsReadable := by
  have hmode := isPlain_modeTokens d.fields.x64
  have haddress := isPlain_addressTokens d.fields.addressSize
  have himm := isPlain_immediateTokens d.fields
  constructor
  · have hmain : mainTokens d.fields ≠ [] := by
      unfold mainTokens
      cases d.fields.form <;> simp
    simp [code, hmain]
  · intro reg hreg
    simp only [code, headTokens, List.mem_append, hmode.2, haddress.2, himm.2,
      digit_not_mem_prefixTokens, false_or, or_false] at hreg
    exact d.isConsistent.fixedReg_le reg (digit_of_mem_mainTokens hreg)
  · rw [← count_vex_prefixTokens]
    simp only [code, headTokens, List.count_append, List.count_eq_zero.2 hmode.1,
      List.count_eq_zero.2 haddress.1, List.count_eq_zero.2 himm.1,
      List.count_eq_zero.2 (vex_not_mem_mainTokens d.fields), Nat.zero_add, Nat.add_zero]

theorem compileText_text_eq (d : OpcodeDescriptor) (context : Code.Context) :
    Code.compileText d.text context = d.code.compile context := by
  rw [← text_code, Code.compileText, Code.ofText_text d.isReadable_code]

end X86Encoding.OpcodeDescriptor
