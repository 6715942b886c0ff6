import X86Encoding.Json.Encoding
import X86Encoding.Proofs.Json.Form
import X86Encoding.Proofs.Prefix.LegacyList
import X86Encoding.Proofs.Vex.Bits

set_option autoImplicit false

namespace X86Encoding

open JsonForm

instance : Lawful Mode := lawful_ofNames (by rintro ⟨⟩ <;> decide) (by decide +kernel)

instance : Lawful AddressSize := lawful_ofNames (by rintro ⟨⟩ <;> decide) (by decide +kernel)

instance : Lawful OpcodeMap := lawful_ofNames (by rintro ⟨⟩ <;> decide) (by decide +kernel)

instance : Lawful SimdPrefix := lawful_ofNames (by rintro ⟨⟩ <;> decide) (by decide +kernel)

instance : Lawful VectorSize := lawful_ofNames (by rintro ⟨⟩ <;> decide) (by decide +kernel)

instance : Lawful VexKind := lawful_ofNames (by rintro ⟨⟩ <;> decide) (by decide +kernel)

instance : Lawful LegacyPrefix := lawful_ofNames (by rintro ⟨⟩ <;> decide) (by decide +kernel)

instance : Lawful OperandSizeRule := lawful_ofNames (by rintro ⟨⟩ <;> decide) (by decide +kernel)

instance : Lawful VariableImmediate := lawful_ofNames (by rintro ⟨⟩ <;> decide) (by decide +kernel)

instance : Lawful ModRM where
  read?_write m := by
    change (do return (⟨← read? (write m.mod), ← read? (write m.reg), ← read? (write m.rm)⟩ :
      ModRM)) = some m
    simp
  write_ne_null _ := nofun

instance : Lawful Rex where
  read?_write p := by
    change (do return (⟨← read? (write p.w), ← read? (write p.r), ← read? (write p.x),
      ← read? (write p.b)⟩ : Rex)) = some p
    simp
  write_ne_null _ := nofun

instance : Lawful VectorPrefix where
  read?_write p := by
    change (do return (⟨← read? (write p.kind), ← read? (write p.vectorSize),
      ← read? (write p.simd), ← read? (write p.map), ← read? (write p.w), ← read? (write p.r),
      ← read? (write p.x), ← read? (write p.b), ← read? (write p.vvvv)⟩ : VectorPrefix)) = some p
    simp
  write_ne_null _ := nofun

instance : Lawful ExtendedPrefix where
  read?_write
    | .rex p => by
      change (do return .rex (← read? (write p))) = some (ExtendedPrefix.rex p)
      simp
    | .vector p => by
      change (do return .vector (← read? (write p))) = some (ExtendedPrefix.vector p)
      simp
  write_ne_null p := by cases p <;> exact nofun

@[simp] theorem PrefixList.ofList_toList (l : PrefixList) : ofList l.toList = .ok l := by
  obtain ⟨m, hm, hl⟩ := ofList_of_le l.length_toList_le
  rw [hm, ext_toList hl]

instance : Lawful PrefixList where
  read?_write l := checked_eq_some_iff.2 ⟨_, ReadsBack.read?_write l.toList, l.ofList_toList⟩
  write_ne_null _ := nofun

instance : Lawful PrefixState where
  read?_write s := by
    change (do return (⟨← read? (write s.mode), ← read? (write s.legacy),
      ← read? (write s.extended), ← read? (write s.map)⟩ : PrefixState)) = some s
    simp
  write_ne_null _ := nofun

instance : Lawful VexDescriptor where
  read?_write v := checked_eq_some_iff.2 ⟨_, readNat?_nat v.bits_lt, v.ofBits_bits⟩
  write_ne_null _ := nofun

theorem AddressingForm.read?_obj (name : Text) (n : UInt8) :
    read? (.obj [(name, write n)]) =
      [AddressingForm.regAnyRM n, .regDirectRM n, .regMemoryRM n, .value n].find?
        (·.name == name) := by
  change ((read? (write n)).bind fun n : UInt8 =>
    [AddressingForm.regAnyRM n, .regDirectRM n, .regMemoryRM n, .value n].find?
      (AddressingForm.name · == name)) = _
  rw [ReadsBack.read?_write]
  rfl

instance : Lawful AddressingForm where
  read?_write f := by
    cases f with
    | noModRM | mainByteReg | any => rfl
    | regAnyRM n | regDirectRM n | regMemoryRM n | value n => exact AddressingForm.read?_obj _ n
  write_ne_null f := by cases f <;> exact nofun

instance : Lawful ImmediateSize where
  read?_write s := by
    change (do return (⟨← read? (write s.fixedBytes), ← read? (write s.varying)⟩ :
      ImmediateSize)) = some s
    simp
  write_ne_null _ := nofun

instance : Lawful OpcodeFields where
  read?_write f := by
    change (do return (⟨← read? (write f.x64), ← read? (write f.addressSize),
      ← read? (write f.operandSize), ← read? (write f.kind), ← read? (write f.vectorSize),
      ← read? (write f.simd), ← read? (write f.map), ← read? (write f.mainByte),
      ← read? (write f.form), ← read? (write f.immediate), ← read? (write f.opcodeImmediate)⟩ :
      OpcodeFields)) = some f
    simp
  write_ne_null _ := nofun

instance : Lawful OpcodeDescriptor where
  read?_write d := checked_eq_some_iff.2 ⟨_, ReadsBack.read?_write d.fields, d.make_fields⟩
  write_ne_null _ := nofun

end X86Encoding
