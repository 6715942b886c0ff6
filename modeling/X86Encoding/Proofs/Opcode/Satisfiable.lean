import X86Encoding.Opcode.Matching
import X86Encoding.Proofs.Byte
import X86Encoding.Proofs.Prefix.Writing

/-!
Which descriptors describe an instruction at all. Prefix 66 selects the operand size and is a
SIMD prefix as well, and no rule of a descriptor sets the one against the other. Outside long
mode one of the two default sizes will do. Long mode has one default, so that there a legacy
descriptor can ask for the size that needs 66 and for no SIMD prefix, or the other way around.
Every other descriptor accepts something that can be read.
-/

set_option autoImplicit false

namespace X86Encoding

namespace OpcodeFields

/-- In long mode, the operand size needs prefix 66 and the SIMD prefix excludes it, or the other
way around. -/
def SizeContradictsSimd (f : OpcodeFields) : Prop :=
  f.kind = none ∧ f.x64 = some true ∧
    (f.operandSize = .word ∧ f.simd = some .np ∨ f.operandSize = .dword ∧ f.simd = some .p66)

instance (f : OpcodeFields) : Decidable f.SizeContradictsSimd :=
  inferInstanceAs (Decidable (_ ∧ _ ∧ _))

end OpcodeFields

namespace OperandSizeRule

/-- Whether 66 has to stand or must not stand, for the size that is asked. -/
def needs66? (r : OperandSizeRule) (mode : Mode) : Option Bool :=
  match r with
  | .word => some (mode.operandSize != .word)
  | .dword => some (mode.operandSize == .word)
  | _ => none

theorem needs66?_long (r : OperandSizeRule) :
    (r.needs66? .x64 = some true ↔ r = .word) ∧ (r.needs66? .x64 = some false ↔ r = .dword) := by
  cases r <;> decide

theorem exists_mode_of_has66 (r : OperandSizeRule) (has66 : Bool) :
    ∃ mode : Mode, mode ≠ .x64 ∧ (r.needs66? mode).all (· == has66) = true := by
  refine ⟨if r.needs66? .ia32 = some (!has66) then .ia16 else .ia32, ?_⟩
  cases r <;> cases has66 <;> decide

theorem admits_of_needs66? {r : OperandSizeRule} {s : PrefixState} (hr : r ≠ .promotion)
    (hp : s.isPromoted = false)
    (h : (r.needs66? s.mode).all (· == s.legacy.contains .operandSize) = true) :
    r.admits s = true := by
  cases r with
  | any => rfl
  | promotion => exact absurd rfl hr
  | noPromotion => rw [admits, hp]; rfl
  | word =>
    rw [needs66?, Option.all_some, beq_iff_eq] at h
    rw [admits, PrefixState.operandSize, hp, Bool.and_false, ← h]
    cases s.mode <;> rfl
  | dword =>
    rw [needs66?, Option.all_some, beq_iff_eq] at h
    rw [admits, PrefixState.operandSize, hp, Bool.and_false, ← h]
    cases s.mode <;> rfl

end OperandSizeRule

theorem SimdPrefix.exists_of_need (need : Option Bool) (simd : Option SimdPrefix)
    (hnp : need = some true → simd ≠ some .np) (hp66 : need = some false → simd ≠ some .p66) :
    ∃ (has66 : Bool) (p : SimdPrefix), (p = .p66 → has66 = true) ∧ (p = .np → has66 = false) ∧
      simd.all (· == p) = true ∧ need.all (· == has66) = true := by
  rcases simd with _ | p
  · rcases need with _ | _ | _
    · exact ⟨false, .np, by decide⟩
    · exact ⟨false, .np, by decide⟩
    · exact ⟨true, .p66, by decide⟩
  · refine ⟨need.getD (p == .p66), p, ?_⟩
    rcases need with _ | _ | _ <;> cases p <;>
      first | decide | exact absurd rfl (hnp rfl) | exact absurd rfl (hp66 rfl)

/-- A mode in which operand size and SIMD prefix go together; long mode only where it is asked
for. -/
theorem OpcodeFields.exists_mode {f : OpcodeFields} (hkind : f.kind = none)
    (h : ¬f.SizeContradictsSimd) :
    ∃ (mode : Mode) (has66 : Bool) (p : SimdPrefix), (mode = .x64 ↔ f.x64 = some true) ∧
      (p = .p66 → has66 = true) ∧ (p = .np → has66 = false) ∧
      f.simd.all (· == p) = true ∧ (f.operandSize.needs66? mode).all (· == has66) = true := by
  by_cases hx : f.x64 = some true
  · obtain ⟨hword, hdword⟩ := f.operandSize.needs66?_long
    obtain ⟨has66, p, hp⟩ := SimdPrefix.exists_of_need (f.operandSize.needs66? .x64) f.simd
      (fun hn hs => h ⟨hkind, hx, .inl ⟨hword.1 hn, hs⟩⟩)
      (fun hn hs => h ⟨hkind, hx, .inr ⟨hdword.1 hn, hs⟩⟩)
    exact ⟨.x64, has66, p, ⟨fun _ => hx, fun _ => rfl⟩, hp⟩
  · obtain ⟨has66, p, hp66, hnp, hs, -⟩ := SimdPrefix.exists_of_need none f.simd
      (fun h => (nomatch h)) (fun h => (nomatch h))
    obtain ⟨mode, hm, hsize⟩ := f.operandSize.exists_mode_of_has66 has66
    exact ⟨mode, has66, p, ⟨fun h => absurd h hm, fun h => absurd h hx⟩, hp66, hnp, hs, hsize⟩

namespace PrefixState

variable {s : PrefixState}

theorem operandSize_long (h : s.mode = .x64) :
    (s.operandSize = .word → s.legacy.contains .operandSize = true) ∧
      (s.operandSize = .dword → s.legacy.contains .operandSize = false) := by
  rw [operandSize, h]
  cases s.isPromoted <;> cases s.legacy.contains .operandSize <;> decide

theorem simd_of_kind_eq_none (h : s.kind? = none) : s.simd = s.legacy.simd := by
  rw [kind?, Option.map_eq_none_iff] at h
  rw [simd, h]

theorem all_addressSize {size : Option AddressSize} (h64 : size = some .a64 → s.mode = .x64)
    (h16 : size = some .a16 → s.mode ≠ .x64)
    (h67 : s.legacy.contains .addressSize = size.any (· != s.mode.addressSize)) :
    size.all (· == s.addressSize) = true := by
  rw [addressSize, h67]
  rcases size with _ | _ | _ | _
  · rfl
  · cases hm : s.mode <;> first | rfl | exact absurd hm (h16 rfl)
  · cases s.mode <;> rfl
  · rw [h64 rfl]
    rfl

end PrefixState

namespace AddressingForm

theorem exists_admits {form : AddressingForm}
    (hreg : ∀ reg, form.fixedReg? = some reg → reg ≤ 7) :
    ∃ modRM : Option UInt8, form.admits (modRM.map ModRM.ofByte) = true := by
  cases form with
  | noModRM => exact ⟨none, rfl⟩
  | mainByteReg => exact ⟨none, rfl⟩
  | any => exact ⟨some 0, rfl⟩
  | regAnyRM reg =>
    obtain ⟨b, hr, -⟩ := ModRM.exists_byte (hreg reg rfl) true
    exact ⟨some b, by simp only [Option.map_some, admits, hr, beq_self_eq_true]⟩
  | regDirectRM reg =>
    obtain ⟨b, hr, hd⟩ := ModRM.exists_byte (hreg reg rfl) true
    exact ⟨some b, by simp only [Option.map_some, admits, hr, hd, beq_self_eq_true, Bool.and_self]⟩
  | regMemoryRM reg =>
    obtain ⟨b, hr, hd⟩ := ModRM.exists_byte (hreg reg rfl) false
    exact ⟨some b, by
      simp only [Option.map_some, admits, hr, hd, beq_self_eq_true, Bool.not_false, Bool.and_self]⟩
  | value byte => exact ⟨some byte, beq_iff_eq.2 (ModRM.toByte_ofByte byte)⟩

end AddressingForm

namespace OpcodeDescriptor

variable (d : OpcodeDescriptor)

theorem exists_imm8 : ∃ imm8 : Option UInt8,
    (imm8.isSome == (d.fields.immediate.fixed? == some 1)) = true ∧
      d.fields.opcodeImmediate.all (imm8 == some ·) = true := by
  cases ho : d.fields.opcodeImmediate with
  | none =>
    refine ⟨if d.fields.immediate.fixed? == some 1 then some 0 else none, ?_, rfl⟩
    cases d.fields.immediate.fixed? == some 1 <;> rfl
  | some byte =>
    have hfixed := d.isConsistent.immediate_fixed (by rw [ho]; exact Option.some_ne_none _)
    exact ⟨some byte, by rw [hfixed]; rfl, by rw [Option.all_some, beq_self_eq_true]⟩

@[simp] theorem mainByte_and_mask : d.fields.mainByte &&& d.mainByteMask = d.fields.mainByte := by
  by_cases hform : d.fields.form = .mainByteReg
  · have hlow : ∀ b : UInt8, b &&& 7 = 0 → b &&& 0xF8 = b := fun b =>
      byteCases b b.toNat_lt (by decide +kernel)
    rw [mainByteMask, hform]
    exact hlow _ (d.isConsistent.mainByte_and hform)
  · rw [mainByteMask, AddressingForm.mainByteMask_of_ne hform, UInt8.and_neg_one]

/-- Behind the main byte, no descriptor contradicts itself. -/
theorem exists_accepts {s : PrefixState} (h : d.acceptsMainByte s d.fields.mainByte = true) :
    ∃ (modRM : Option UInt8) (imm8 : Option UInt8),
      d.accepts s d.fields.mainByte (modRM.map ModRM.ofByte) imm8 = true := by
  obtain ⟨modRM, hform⟩ := AddressingForm.exists_admits d.isConsistent.fixedReg_le
  obtain ⟨imm8, hsome, himm⟩ := d.exists_imm8
  exact ⟨modRM, imm8, by simp only [accepts, h, hform, hsome, himm, Bool.and_self]⟩

theorem not_acceptsMainByte_of_sizeContradictsSimd (h : d.fields.SizeContradictsSimd)
    (s : PrefixState) (mainByte : UInt8) : d.acceptsMainByte s mainByte = false := by
  obtain ⟨hkind, hx64, hsize⟩ := h
  refine Bool.eq_false_iff.2 fun ha => ?_
  simp only [acceptsMainByte, validIn, hkind, hx64, Bool.and_eq_true, Option.all_some,
    beq_iff_eq] at ha
  obtain ⟨⟨⟨⟨⟨⟨⟨hmode, -⟩, hlegacy⟩, -⟩, hadmits⟩, hsimd⟩, -⟩, -⟩ := ha
  obtain ⟨hword, hdword⟩ :=
    PrefixState.operandSize_long ((Mode.isLong_iff _).1 hmode.symm)
  rw [PrefixState.simd_of_kind_eq_none hlegacy] at hsimd
  obtain ⟨hr, hp⟩ | ⟨hr, hp⟩ := hsize
  · rw [hp, Option.all_some, beq_iff_eq] at hsimd
    rw [hr, OperandSizeRule.admits, beq_iff_eq] at hadmits
    exact PrefixList.simd_ne_np_of_contains (hword hadmits) hsimd.symm
  · rw [hp, Option.all_some, beq_iff_eq] at hsimd
    rw [hr, OperandSizeRule.admits, beq_iff_eq] at hadmits
    have hcontains := PrefixList.contains_of_simd_eq_p66 hsimd.symm
    rw [hdword hadmits] at hcontains
    cases hcontains

variable {d} {s : PrefixState}

theorem acceptsMainByte_of (hlong : s.mode = .x64 ↔ d.fields.x64 = some true)
    (h67 : s.legacy.contains .addressSize = d.fields.addressSize.any (· != s.mode.addressSize))
    (hkind : s.kind? = d.fields.kind)
    (hvector : d.fields.vectorSize.all (s.vectorSize? == some ·) = true)
    (hoperand : d.fields.operandSize.admits s = true)
    (hsimd : d.fields.simd.all (· == s.simd) = true) (hmap : s.map = d.fields.map) :
    d.acceptsMainByte s d.fields.mainByte = true := by
  have hmode : d.validIn s.mode = true := by
    rw [validIn, Option.all_eq_true]
    rintro (_ | _) hx
    · simpa [Mode.isLong, hx] using hlong
    · simpa [Mode.isLong, hx] using hlong
  have haddress : d.fields.addressSize.all (· == s.addressSize) = true := by
    refine PrefixState.all_addressSize (fun h => hlong.2 (d.isConsistent.x64_of_a64 h))
      (fun h hx => ?_) h67
    rw [d.isConsistent.x64_of_a16 h] at hlong
    cases hlong.1 hx
  simp [acceptsMainByte, hmode, haddress, hkind, hvector, hoperand, hsimd, hmap]

theorem exists_isRead_of_vector {kind : VexKind} (hkind : d.fields.kind = some kind) :
    ∃ s : PrefixState, s.IsRead ∧ d.acceptsMainByte s d.fields.mainByte = true := by
  have hc := d.isConsistent
  have hsome : d.fields.kind ≠ none := by rw [hkind]; exact Option.some_ne_none _
  obtain ⟨p, hp⟩ := Option.ne_none_iff_exists'.1 (hc.simd_ne_none hsome)
  obtain ⟨v, -, hv⟩ := d.vex_of_kind_eq_some hkind
  obtain ⟨hmap, hxop, hwide⟩ := VexFields.fault?_eq_none_iff.1 v.consistent
  simp only [hv] at hmap hxop hwide
  obtain ⟨mode, hmode⟩ : ∃ mode : Mode, mode = .x64 ↔ d.fields.x64 = some true := by
    by_cases hx : d.fields.x64 = some true
    · exact ⟨.x64, by simp [hx]⟩
    · exact ⟨.ia32, by simp [hx]⟩
  -- 67 is the only legacy prefix that may stand before a vector prefix
  obtain ⟨l, hl, h67⟩ := PrefixList.exists_addressSize
    (d.fields.addressSize.any (· != mode.addressSize))
  refine ⟨⟨mode, l, some (.vector (.plain kind (d.fields.vectorSize.getD .v128) p
    d.fields.map (d.fields.operandSize == .promotion))), d.fields.map⟩,
    PrefixState.isRead_vector mode l p _ ?_ hmap hxop ?_,
    acceptsMainByte_of hmode h67 hkind.symm ?_ ?_ ?_ rfl⟩
  · intro q hq
    rw [hl q hq]
    decide
  · cases hs : d.fields.vectorSize with
    | none => intro h; cases h
    | some size =>
      rintro rfl
      exact hwide hs
  · cases d.fields.vectorSize with
    | none => rfl
    | some size => exact beq_self_eq_true _
  · have hw := hc.isVexCompatible hsome
    cases hr : d.fields.operandSize <;> rw [hr] at hw <;> first | rfl | cases hw
  · rw [hp]
    exact beq_self_eq_true p

theorem exists_isRead_of_legacy (hkind : d.fields.kind = none)
    (h : ¬d.fields.SizeContradictsSimd) :
    ∃ s : PrefixState, s.IsRead ∧ d.acceptsMainByte s d.fields.mainByte = true := by
  have hc := d.isConsistent
  obtain ⟨mode, has66, p, hmode, hp66, hpnp, hsimd, hsize⟩ := OpcodeFields.exists_mode hkind h
  obtain ⟨l, h66, h67, hp⟩ := PrefixList.exists_selecting
    (d.fields.addressSize.any (· != mode.addressSize)) hp66 hpnp
  by_cases hr : d.fields.operandSize = .promotion
  · obtain rfl := hmode.2 (hc.x64_of_promotion hr hkind)
    refine ⟨_, PrefixState.isRead_rex l ⟨true, false, false, false⟩ (hc.isXop_eq_false hkind),
      acceptsMainByte_of hmode h67 hkind.symm ?_ ?_ ?_ rfl⟩
    · rw [hc.vectorSize_eq_none hkind]
      rfl
    · rw [hr]
      rfl
    · rw [← hp] at hsimd
      exact hsimd
  · refine ⟨_, PrefixState.isRead_escape mode l (hc.isXop_eq_false hkind),
      acceptsMainByte_of hmode h67 hkind.symm ?_ ?_ ?_ rfl⟩
    · rw [hc.vectorSize_eq_none hkind]
      rfl
    · exact OperandSizeRule.admits_of_needs66? hr rfl (h66 ▸ hsize)
    · rw [← hp] at hsimd
      exact hsimd

variable (d) in
/-- A descriptor accepts something that can be read, or it accepts nothing at all. -/
theorem exists_accepts_iff :
    ((∃ (mode : Mode) (bytes : List UInt8) (s : PrefixState) (n : Nat) (mainByte : UInt8)
        (modRM imm8 : Option UInt8), PrefixState.read bytes mode = .ok (s, n) ∧
        d.accepts s mainByte (modRM.map ModRM.ofByte) imm8 = true) ↔
      ¬d.fields.SizeContradictsSimd) ∧
    (d.fields.SizeContradictsSimd ↔ ∀ (s : PrefixState) (mainByte : UInt8),
      d.acceptsMainByte s mainByte = false) := by
  have hall := d.not_acceptsMainByte_of_sizeContradictsSimd
  have hsome : ¬d.fields.SizeContradictsSimd →
      ∃ s : PrefixState, s.IsRead ∧ d.acceptsMainByte s d.fields.mainByte = true := by
    intro h
    cases hkind : d.fields.kind with
    | none => exact exists_isRead_of_legacy hkind h
    | some kind => exact exists_isRead_of_vector hkind
  refine ⟨⟨?_, fun h => ?_⟩, hall, fun h => ?_⟩
  · rintro ⟨mode, bytes, s, n, mainByte, modRM, imm8, -, ha⟩ h
    simp only [accepts, hall h, Bool.false_and, Bool.false_eq_true] at ha
  · obtain ⟨s, ⟨bytes, n, hread⟩, ha⟩ := hsome h
    obtain ⟨modRM, imm8, haccepts⟩ := d.exists_accepts ha
    exact ⟨s.mode, bytes, s, n, _, modRM, imm8, hread, haccepts⟩
  · refine Decidable.byContradiction fun hn => ?_
    obtain ⟨s, -, ha⟩ := hsome hn
    rw [h] at ha
    cases ha

theorem exists_accepts_iff_word :
    ∃ d d' : OpcodeDescriptor, d'.fields = { d.fields with x64 := none } ∧
      (∀ (s : PrefixState) (mainByte : UInt8), d.acceptsMainByte s mainByte = false) ∧
      ∃ (mode : Mode) (bytes : List UInt8) (s : PrefixState) (n : Nat) (mainByte : UInt8)
        (modRM imm8 : Option UInt8), PrefixState.read bytes mode = .ok (s, n) ∧
        d'.accepts s mainByte (modRM.map ModRM.ofByte) imm8 = true := by
  let f : OpcodeFields :=
    { OpcodeFields.initial with x64 := some true, operandSize := .word, simd := some .np }
  let d : OpcodeDescriptor := ⟨f, by decide⟩
  let d' : OpcodeDescriptor := ⟨{ f with x64 := none }, by decide⟩
  exact ⟨d, d', rfl, d.exists_accepts_iff.2.1 (by decide), d'.exists_accepts_iff.1.2 (by decide)⟩

end OpcodeDescriptor
end X86Encoding
