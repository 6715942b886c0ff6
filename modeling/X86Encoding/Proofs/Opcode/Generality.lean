import Mathlib.Logic.Relation
import Mathlib.Order.Defs.PartialOrder
import X86Encoding.Opcode.Matching
import X86Encoding.Proofs.Prefix.Lossless

/-!
Descriptors that ask for less. A constraint may be left out, a register form may leave open what
a narrower one fixes, and an operand size of 16 or 32 bits may give way to the absence of
promotion. What a descriptor accepts, every more general one accepts as well. For operand sizes
this is no fact about all prefix states: it takes that the bits of REX are read in long mode only.
-/

set_option autoImplicit false

namespace X86Encoding

def Loosens {α : Type} (x x' : Option α) : Prop := x' = x ∨ x' = none

namespace Loosens

variable {α : Type} {x x' x'' : Option α}

theorem refl (x : Option α) : Loosens x x := .inl rfl

theorem trans (h : Loosens x x') (h' : Loosens x' x'') : Loosens x x'' := by
  rcases h' with rfl | rfl
  · exact h
  · exact .inr rfl

theorem all {p : α → Bool} (h : Loosens x x') (hx : x.all p = true) : x'.all p = true := by
  rcases h with rfl | rfl
  · exact hx
  · rfl

end Loosens

namespace PrefixState

variable {s : PrefixState}

theorem isLong_of_isPromoted (hw : s.WellFormed) (hkind : s.kind? = none)
    (hp : s.isPromoted = true) : s.mode.isLong = true := by
  unfold isPromoted at hp
  split at hp
  · rename_i p he
    exact (Mode.isLong_iff _).2 (hw.rex (by simp [rex?, he]))
  · rename_i v he
    simp [kind?, vector?, he] at hkind
  · cases hp

theorem isPromoted_eq_false_of_operandSize (hlong : s.isPromoted = true → s.mode.isLong = true)
    (hsize : s.operandSize ≠ .qword) : s.isPromoted = false := by
  refine Bool.eq_false_iff.2 fun hp => hsize ?_
  simp only [operandSize, hlong hp, hp, Bool.and_self, if_true]

end PrefixState

namespace OperandSizeRule

inductive Loosens : OperandSizeRule → OperandSizeRule → Prop where
  | same (r : OperandSizeRule) : Loosens r r
  | any (r : OperandSizeRule) : Loosens r .any
  | word : Loosens .word .noPromotion
  | dword : Loosens .dword .noPromotion

variable {r r' r'' : OperandSizeRule} {s : PrefixState}

theorem Loosens.trans (h : Loosens r r') (h' : Loosens r' r'') : Loosens r r'' := by
  cases h' with
  | same => exact h
  | any => exact .any r
  | word =>
    cases h
    exact .word
  | dword =>
    cases h
    exact .dword

theorem Loosens.admits (h : Loosens r r')
    (hlong : r.isVexCompatible = false → s.isPromoted = true → s.mode.isLong = true)
    (ha : r.admits s = true) : r'.admits s = true := by
  cases h with
  | same => exact ha
  | any => rfl
  | word =>
    have hsize : s.operandSize = .word := by simpa [OperandSizeRule.admits] using ha
    have hp := s.isPromoted_eq_false_of_operandSize (hlong rfl) (by simp [hsize])
    simp [OperandSizeRule.admits, hp]
  | dword =>
    have hsize : s.operandSize = .dword := by simpa [OperandSizeRule.admits] using ha
    have hp := s.isPromoted_eq_false_of_operandSize (hlong rfl) (by simp [hsize])
    simp [OperandSizeRule.admits, hp]

end OperandSizeRule

namespace AddressingForm

/-- The forms right above a form: they leave open one thing more. -/
inductive Widens : AddressingForm → AddressingForm → Prop where
  | value (byte : UInt8) : Widens (.value byte) (.regDirectRM (ModRM.ofByte byte).reg)
  | direct (reg : UInt8) : Widens (.regDirectRM reg) (.regAnyRM reg)
  | memory (reg : UInt8) : Widens (.regMemoryRM reg) (.regAnyRM reg)
  | register (reg : UInt8) : Widens (.regAnyRM reg) .any

variable {f g : AddressingForm}

/-- A whole byte is a narrower form than a register only because it is the byte of one. -/
theorem Widens.admits (h : f.Widens g) (hdirect : OpcodeFields.isDirectValue f = true)
    (modRM : Option UInt8) (ha : f.admits (modRM.map ModRM.ofByte) = true) :
    g.admits (modRM.map ModRM.ofByte) = true := by
  cases modRM with
  | none => cases h <;> cases ha
  | some b =>
    cases h with
    | value byte =>
      have hb : b = byte := by
        simpa [AddressingForm.admits] using ha
      subst hb
      simp only [Option.map_some, AddressingForm.admits, beq_self_eq_true, Bool.true_and]
      exact hdirect
    | direct reg =>
      simp only [Option.map_some, AddressingForm.admits, Bool.and_eq_true] at ha
      exact ha.1
    | memory reg =>
      simp only [Option.map_some, AddressingForm.admits, Bool.and_eq_true] at ha
      exact ha.1
    | register reg => rfl

/-- Nothing is right below a whole byte, so only the first form of a chain can be one. -/
theorem admits_of_widens (h : Relation.ReflTransGen Widens f g)
    (hdirect : OpcodeFields.isDirectValue f = true) (modRM : Option UInt8)
    (ha : f.admits (modRM.map ModRM.ofByte) = true) :
    OpcodeFields.isDirectValue g = true ∧ g.admits (modRM.map ModRM.ofByte) = true := by
  induction h with
  | refl => exact ⟨hdirect, ha⟩
  | tail _ hstep ih => exact ⟨by cases hstep <;> rfl, hstep.admits ih.1 modRM ih.2⟩

theorem mainByteMask_of_widens (h : Relation.ReflTransGen Widens f g) :
    g.mainByteMask = f.mainByteMask := by
  induction h with
  | refl => rfl
  | tail _ hstep ih => rw [← ih]; cases hstep <;> rfl

end AddressingForm

structure OpcodeFields.Generalizes (f g : OpcodeFields) : Prop where
  mainByte : g.mainByte = f.mainByte
  map : g.map = f.map
  kind : g.kind = f.kind
  immediate : g.immediate = f.immediate
  x64 : Loosens f.x64 g.x64
  addressSize : Loosens f.addressSize g.addressSize
  vectorSize : Loosens f.vectorSize g.vectorSize
  simd : Loosens f.simd g.simd
  opcodeImmediate : Loosens f.opcodeImmediate g.opcodeImmediate
  operandSize : f.operandSize.Loosens g.operandSize
  form : Relation.ReflTransGen AddressingForm.Widens f.form g.form

namespace OpcodeDescriptor

instance : Preorder OpcodeDescriptor where
  le d e := d.fields.Generalizes e.fields
  le_refl d := ⟨rfl, rfl, rfl, rfl, .refl _, .refl _, .refl _, .refl _, .refl _, .same _, .refl⟩
  le_trans _ _ _ h h' :=
    ⟨h'.mainByte.trans h.mainByte, h'.map.trans h.map, h'.kind.trans h.kind,
      h'.immediate.trans h.immediate, h.x64.trans h'.x64, h.addressSize.trans h'.addressSize,
      h.vectorSize.trans h'.vectorSize, h.simd.trans h'.simd,
      h.opcodeImmediate.trans h'.opcodeImmediate, h.operandSize.trans h'.operandSize,
      h.form.trans h'.form⟩

variable {d e : OpcodeDescriptor} {s : PrefixState}

theorem acceptsMainByte_of_le (h : d ≤ e) (hw : s.WellFormed) {mainByte : UInt8}
    (ha : d.acceptsMainByte s mainByte = true) : e.acceptsMainByte s mainByte = true := by
  have hg : d.fields.Generalizes e.fields := h
  simp only [acceptsMainByte, Bool.and_eq_true, beq_iff_eq] at ha ⊢
  obtain ⟨⟨⟨⟨⟨⟨⟨hmode, haddress⟩, hkind⟩, hvector⟩, hoperand⟩, hsimd⟩, hmap⟩, hbyte⟩ := ha
  -- a rule that asks for a size is one of a legacy descriptor
  have hlong : d.fields.operandSize.isVexCompatible = false → s.isPromoted = true →
      s.mode.isLong = true := by
    intro hsize
    refine PrefixState.isLong_of_isPromoted hw (hkind.trans ?_)
    refine Decidable.byContradiction fun hsome => ?_
    rw [d.isConsistent.isVexCompatible hsome] at hsize
    cases hsize
  have hmask : e.mainByteMask = d.mainByteMask := AddressingForm.mainByteMask_of_widens hg.form
  exact ⟨⟨⟨⟨⟨⟨⟨hg.x64.all hmode, hg.addressSize.all haddress⟩, hkind.trans hg.kind.symm⟩,
    hg.vectorSize.all hvector⟩, hg.operandSize.admits hlong hoperand⟩, hg.simd.all hsimd⟩,
    hmap.trans hg.map.symm⟩, by rw [hmask, hbyte, hg.mainByte]⟩

/-- A more general descriptor loses no match on what can be read. -/
theorem accepts_of_le (h : d ≤ e) {bytes : List UInt8} {mode : Mode} {n : Nat}
    (hread : PrefixState.read bytes mode = .ok (s, n)) (mainByte : UInt8)
    (modRM imm8 : Option UInt8)
    (ha : d.accepts s mainByte (modRM.map ModRM.ofByte) imm8 = true) :
    e.accepts s mainByte (modRM.map ModRM.ofByte) imm8 = true := by
  have hg : d.fields.Generalizes e.fields := h
  obtain ⟨-, k, -, hreads⟩ := PrefixState.reads_of_read hread
  simp only [accepts, Bool.and_eq_true] at ha ⊢
  obtain ⟨⟨⟨hbyte, hform⟩, hsome⟩, hvalue⟩ := ha
  refine ⟨⟨⟨acceptsMainByte_of_le h hreads.wellFormed hbyte, ?_⟩, ?_⟩,
    hg.opcodeImmediate.all hvalue⟩
  · exact (AddressingForm.admits_of_widens hg.form d.isConsistent.isDirectValue modRM hform).2
  · rw [hg.immediate]
    exact hsome

theorem accepts_of_le_addByte :
    ∃ (d e : OpcodeDescriptor) (s : PrefixState), d ≤ e ∧
      PrefixState.read [0x66, 0x80, 0xC1, 0x0A] .ia32 = .ok (s, 1) ∧
      d.accepts s 0x80 (some (.ofByte 0xC1)) (some 0x0A) = true ∧
      e.accepts s 0x80 (some (.ofByte 0xC1)) (some 0x0A) = true := by
  let f : OpcodeFields :=
    { OpcodeFields.initial with mainByte := 0x80, immediate := .fixed 1 }
  let d : OpcodeDescriptor := ⟨{ f with
    x64 := some false, operandSize := .word, simd := some .p66, form := .value 0xC1,
    opcodeImmediate := some 0x0A }, by decide⟩
  let e : OpcodeDescriptor := ⟨{ f with operandSize := .noPromotion, form := .regAnyRM 0 },
    by decide⟩
  have hle : d ≤ e := ⟨rfl, rfl, rfl, rfl, .inr rfl, .inl rfl, .inl rfl, .inr rfl, .inr rfl, .word,
    .tail (.single (.value 0xC1)) (.direct 0)⟩
  obtain ⟨s, hread, ha⟩ : ∃ s, PrefixState.read [0x66, 0x80, 0xC1, 0x0A] .ia32 = .ok (s, 1) ∧
      d.accepts s 0x80 (some (.ofByte 0xC1)) (some 0x0A) = true := ⟨_, rfl, by decide⟩
  exact ⟨d, e, s, hle, hread, ha, accepts_of_le hle hread 0x80 (some 0xC1) (some 0x0A) ha⟩

end OpcodeDescriptor
end X86Encoding
