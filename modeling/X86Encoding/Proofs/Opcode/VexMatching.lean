import X86Encoding.Opcode.Matching
import X86Encoding.Proofs.Prefix.Lossless
import X86Encoding.Proofs.Vex.Bits

/-!
A descriptor with a vector prefix compares its own fields with the prefixes one by one. Its 16-bit
form, held against that of the prefix, says the same: nothing of a vector prefix is compared
otherwise, and nothing is left out.
-/

set_option autoImplicit false

namespace X86Encoding

namespace VexDescriptor

/-- What `v` asks for is what `x` has. The role is not compared; a vector size or a W bit that `v`
leaves open admits every one. -/
structure Admits (v x : VexDescriptor) : Prop where
  kind : v.fields.kind = x.fields.kind
  simd : v.fields.simd = x.fields.simd
  map : v.fields.map = x.fields.map
  vectorSize : v.fields.vectorSize = none ∨ v.fields.vectorSize = x.fields.vectorSize
  w : v.fields.w = none ∨ v.fields.w = x.fields.w

/-- The same of the 16-bit forms: the kind has the lowest places, SIMD prefix and map are
neighbours, and the code of what is left open is zero. -/
structure AdmitsBits (n k : Nat) : Prop where
  kind : n % 4 = k % 4
  simdMap : n / 64 % 64 = k / 64 % 64
  vectorSize : n / 16 % 4 = 0 ∨ n / 16 % 4 = k / 16 % 4
  w : n / 4096 = 0 ∨ n / 4096 = k / 4096

theorem admits_iff_bits {v x : VexDescriptor} : v.Admits x ↔ AdmitsBits v.bits x.bits := by
  obtain ⟨hkind, -, hsize, hsimd, hmap, hw⟩ := v.places_bits
  obtain ⟨hkind', -, hsize', hsimd', hmap', hw'⟩ := x.places_bits
  have hsimdMap : v.bits / 64 % 64 = x.bits / 64 % 64 ↔
      v.fields.simd.pp = x.fields.simd.pp ∧ v.fields.map.index = x.fields.map.index := by
    omega
  constructor
  · rintro ⟨h1, h2, h3, h4, h5⟩
    constructor
    · rw [hkind, hkind', h1]
    · exact hsimdMap.2 ⟨by rw [h2], by rw [h3]⟩
    · rw [hsize, hsize']
      exact h4.imp sizeCode_inj.2 sizeCode_inj.2
    · rw [hw, hw']
      exact h5.imp wCode_inj.2 wCode_inj.2
  · rintro ⟨h1, h2, h3, h4⟩
    rw [hkind, hkind', kindCode_inj] at h1
    rw [hsimdMap, SimdPrefix.pp_inj, OpcodeMap.index_inj] at h2
    rw [hsize, hsize'] at h3
    rw [hw, hw'] at h4
    exact ⟨h1, h2.1, h2.2, h3.imp sizeCode_inj.1 sizeCode_inj.1, h4.imp wCode_inj.1 wCode_inj.1⟩

end VexDescriptor

namespace PrefixState

variable {s : PrefixState} {x : VectorPrefix}

theorem extended_of_vector? (h : s.vector? = some x) : s.extended = some (.vector x) := by
  unfold vector? at h
  split at h
  · next p hp => rw [hp, Option.some.inj h]
  · cases h

theorem isPromoted_of_vector? (h : s.vector? = some x) : s.isPromoted = x.w := by
  rw [isPromoted, extended_of_vector? h]

end PrefixState

theorem OperandSizeRule.admits_iff_promotion? {r : OperandSizeRule} {s : PrefixState}
    (h : r.isVexCompatible = true) :
    r.admits s = true ↔ r.promotion? = none ∨ r.promotion? = some s.isPromoted := by
  cases r with
  | word | dword => cases h
  | any => simp [admits, promotion?]
  | noPromotion | promotion => cases hw : s.isPromoted <;> simp [admits, promotion?, hw]

namespace OpcodeDescriptor

variable {d : OpcodeDescriptor} {s : PrefixState} {x : VectorPrefix} {v X : VexDescriptor}
  (mainByte : UInt8)

theorem acceptsMainByte_eq_false (hkind : d.fields.kind ≠ s.kind?) :
    d.acceptsMainByte s mainByte = false := by
  have hne : (s.kind? == d.fields.kind) = false := beq_eq_false_iff_ne.2 hkind.symm
  simp [acceptsMainByte, hne]

theorem kind_ne_none_of_vex (hv : d.vex = .ok v) : d.fields.kind ≠ none := by
  intro hkind
  cases (d.vex_of_kind_eq_none hkind).symm.trans hv

theorem vex_admits_iff (hv : d.vex = .ok v) (hX : VexDescriptor.ofVector x = .ok X) :
    v.Admits X ↔ d.fields.kind = some x.kind ∧ d.fields.simd = some x.simd ∧
      d.fields.map = x.map ∧
      (d.fields.vectorSize = none ∨ d.fields.vectorSize = some x.vectorSize) ∧
      (d.fields.operandSize.promotion? = none ∨
        d.fields.operandSize.promotion? = some x.w) := by
  have hsome := kind_ne_none_of_vex hv
  obtain ⟨kind, hkind⟩ := Option.ne_none_iff_exists'.1 hsome
  obtain ⟨p, hp⟩ := Option.ne_none_iff_exists'.1 (d.isConsistent.simd_ne_none hsome)
  obtain ⟨v', hv', hvfields⟩ := d.vex_of_kind_eq_some hkind
  obtain rfl := Except.ok.inj (hv.symm.trans hv')
  have hXfields := Checked.fields_of_make hX
  rw [hkind, hp, Option.some_inj, Option.some_inj]
  rw [hp, Option.getD_some] at hvfields
  constructor
  · rintro ⟨h1, h2, h3, h4, h5⟩
    rw [hvfields, hXfields] at h1 h2 h3 h4 h5
    exact ⟨h1, h2, h3, h4, h5⟩
  · rintro ⟨h1, h2, h3, h4, h5⟩
    constructor <;> rw [hvfields, hXfields] <;> assumption

/-- The comparisons of a vector prefix, all in one. -/
theorem acceptsMainByte_iff_admits (hx : s.vector? = some x) (hmap : s.map = x.map)
    (hX : VexDescriptor.ofVector x = .ok X) (hv : d.vex = .ok v) :
    d.acceptsMainByte s mainByte = true ↔ d.validIn s.mode = true ∧
      d.fields.addressSize.all (· == s.addressSize) = true ∧
      mainByte &&& d.mainByteMask = d.fields.mainByte ∧ v.Admits X := by
  have hsome := kind_ne_none_of_vex hv
  have hkinds : s.kind? = some x.kind := by rw [PrefixState.kind?, hx, Option.map_some]
  have hsize : d.fields.vectorSize.all (s.vectorSize? == some ·) = true ↔
      d.fields.vectorSize = none ∨ d.fields.vectorSize = some x.vectorSize := by
    rw [PrefixState.vectorSize?, hx]
    cases d.fields.vectorSize with
    | none => simp
    | some l =>
      simp only [Option.all_some, Option.map_some, beq_iff_eq, reduceCtorEq, false_or]
      exact eq_comm
  have hsimd : d.fields.simd.all (· == s.simd) = true ↔ d.fields.simd = some x.simd := by
    obtain ⟨p, hp⟩ := Option.ne_none_iff_exists'.1 (d.isConsistent.simd_ne_none hsome)
    rw [hp, PrefixState.simd, hx, Option.all_some, beq_iff_eq, Option.some_inj]
  have hrule :=
    OperandSizeRule.admits_iff_promotion? (s := s) (d.isConsistent.isVexCompatible hsome)
  rw [PrefixState.isPromoted_of_vector? hx] at hrule
  rw [vex_admits_iff hv hX, ← hrule, ← hsize, ← hsimd]
  simp only [acceptsMainByte, hkinds, hmap, Bool.and_eq_true, beq_iff_eq]
  constructor
  · rintro ⟨⟨⟨⟨⟨⟨⟨hvalid, haddress⟩, hkind⟩, hsize⟩, hrule⟩, hsimd⟩, hmap⟩, hbyte⟩
    exact ⟨hvalid, haddress, hbyte, hkind.symm, hsimd, hmap.symm, hsize, hrule⟩
  · rintro ⟨hvalid, haddress, hbyte, hkind, hsimd, hmap, hsize, hrule⟩
    exact ⟨⟨⟨⟨⟨⟨⟨hvalid, haddress⟩, hkind.symm⟩, hsize⟩, hrule⟩, hsimd⟩, hmap.symm⟩, hbyte⟩

/-- Behind prefixes that were read, a vector prefix has a descriptor, and what a descriptor accepts
is told by its own descriptor of a vector prefix, which is compared with that one in the 16-bit
form. Where no vector prefix was read, no descriptor that asks for one accepts anything. -/
theorem acceptsMainByte_vex {bytes : List UInt8} {mode : Mode} {n : Nat}
    (h : PrefixState.read bytes mode = .ok (s, n)) (d : OpcodeDescriptor) (mainByte : UInt8) :
    (∀ x, s.vector? = some x → ∃ X, VexDescriptor.ofVector x = .ok X ∧
      (∀ v : VexDescriptor, v.Admits X ↔ VexDescriptor.AdmitsBits v.bits X.bits) ∧
      (d.fields.kind ≠ none → ∃ v, d.vex = .ok v) ∧
      (d.acceptsMainByte s mainByte = true ↔
        d.fields.kind ≠ none ∧ d.validIn mode = true ∧
          d.fields.addressSize.all (· == s.addressSize) = true ∧
          mainByte &&& d.mainByteMask = d.fields.mainByte ∧
          ∃ v, d.vex = .ok v ∧ v.Admits X)) ∧
    (s.vector? = none → d.fields.kind ≠ none → d.acceptsMainByte s mainByte = false) := by
  obtain ⟨-, -, hmode, hwf, -⟩ := PrefixState.read_lossless h
  constructor
  · intro x hx
    obtain ⟨hmap, ⟨X, hX⟩, -⟩ := hwf.vector x hx
    refine ⟨X, hX, fun v => VexDescriptor.admits_iff_bits, fun hkind => ?_, ?_⟩
    · obtain ⟨kind, hkind⟩ := Option.ne_none_iff_exists'.1 hkind
      obtain ⟨v, hv, -⟩ := d.vex_of_kind_eq_some hkind
      exact ⟨v, hv⟩
    · cases hkind : d.fields.kind with
      | none =>
        have hne : d.fields.kind ≠ s.kind? := by simp [hkind, PrefixState.kind?, hx]
        simp [acceptsMainByte_eq_false mainByte hne]
      | some kind =>
        obtain ⟨v, hv, -⟩ := d.vex_of_kind_eq_some hkind
        rw [acceptsMainByte_iff_admits mainByte hx hmap hX hv, hmode]
        simp only [hv, Except.ok.injEq, exists_eq_left', ne_eq, reduceCtorEq, not_false_eq_true,
          true_and]
  · intro hnone hkind
    refine acceptsMainByte_eq_false mainByte ?_
    rwa [PrefixState.kind?, hnone, Option.map_none]

/-- `vex.128.0f 58 /r`, in 16 bits `0x110` -/
def vectorAdd : OpcodeDescriptor where
  fields := { OpcodeFields.initial with
    kind := some .vex
    vectorSize := some .v128
    simd := some .np
    map := .escape0F
    mainByte := 0x58
    form := .any }
  consistent := by decide

theorem acceptsMainByte_vex_vectorAdd :
    (∃ s x X v, PrefixState.read [0xC5, 0xF8, 0x58, 0xC1] .x64 = .ok (s, 2) ∧
      s.vector? = some x ∧ VexDescriptor.ofVector x = .ok X ∧ vectorAdd.vex = .ok v ∧
      VexDescriptor.AdmitsBits v.bits X.bits ∧ vectorAdd.acceptsMainByte s 0x58 = true) ∧
    ∃ s, PrefixState.read [0x0F, 0x58, 0xC1] .x64 = .ok (s, 1) ∧
      vectorAdd.acceptsMainByte s 0x58 = false := by
  constructor
  · obtain ⟨s, x, h, hx, haccepts⟩ : ∃ s x,
        PrefixState.read [0xC5, 0xF8, 0x58, 0xC1] .x64 = .ok (s, 2) ∧ s.vector? = some x ∧
          vectorAdd.acceptsMainByte s 0x58 = true := ⟨_, _, rfl, rfl, by decide⟩
    obtain ⟨X, hX, hbits, -, hiff⟩ := (acceptsMainByte_vex h vectorAdd 0x58).1 x hx
    obtain ⟨-, -, -, -, v, hv, hadmits⟩ := hiff.1 haccepts
    exact ⟨s, x, X, v, h, hx, hX, hv, (hbits v).1 hadmits, haccepts⟩
  · obtain ⟨s, h, hnone⟩ : ∃ s, PrefixState.read [0x0F, 0x58, 0xC1] .x64 = .ok (s, 1) ∧
        s.vector? = none := ⟨_, rfl, rfl⟩
    exact ⟨s, h, (acceptsMainByte_vex h vectorAdd 0x58).2 hnone (by decide)⟩

end OpcodeDescriptor
end X86Encoding
