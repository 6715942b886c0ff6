import X86Encoding.Vex.Descriptor

set_option autoImplicit false

namespace X86Encoding

/-- A code that is read back belongs to one value only. -/
theorem code_inj {α : Type} {code : α → Nat} {read? : Nat → Option α}
    (h : ∀ a, read? (code a) = some a) {a b : α} : code a = code b ↔ a = b := by
  refine ⟨fun hab => ?_, congrArg code⟩
  rw [← Option.some_inj, ← h a, hab, h b]

theorem SimdPrefix.pp_lt (p : SimdPrefix) : p.pp < 4 := by cases p <;> decide

@[simp] theorem SimdPrefix.pp_inj {p p' : SimdPrefix} : p.pp = p'.pp ↔ p = p' :=
  (Function.LeftInverse.injective ofPP_pp).eq_iff

theorem OpcodeMap.index_lt (m : OpcodeMap) : m.index < 16 := by cases m <;> decide

@[simp] theorem OpcodeMap.index_inj {m m' : OpcodeMap} : m.index = m'.index ↔ m = m' :=
  code_inj ofIndex?_index

namespace VexDescriptor

theorem kindCode_lt (kind : VexKind) : kindCode kind < 4 := by cases kind <;> decide

@[simp] theorem kindOfCode?_kindCode (kind : VexKind) :
    kindOfCode? (kindCode kind) = some kind := by
  cases kind <;> rfl

@[simp] theorem kindCode_inj {kind kind' : VexKind} :
    kindCode kind = kindCode kind' ↔ kind = kind' :=
  code_inj kindOfCode?_kindCode

theorem roleCode_lt (role : Option RegisterRole) : roleCode role < 4 := by
  rcases role with _ | _ | _ | _ <;> decide

@[simp] theorem roleOfCode_roleCode (role : Option RegisterRole) :
    roleOfCode (roleCode role) = role := by
  rcases role with _ | _ | _ | _ <;> rfl

theorem sizeCode_lt (size : Option VectorSize) : sizeCode size < 4 := by
  rcases size with _ | _ | _ | _ <;> decide

@[simp] theorem sizeOfCode_sizeCode (size : Option VectorSize) :
    sizeOfCode (sizeCode size) = size := by
  rcases size with _ | _ | _ | _ <;> rfl

@[simp] theorem sizeCode_inj {size size' : Option VectorSize} :
    sizeCode size = sizeCode size' ↔ size = size' :=
  (Function.LeftInverse.injective sizeOfCode_sizeCode).eq_iff

theorem wCode_lt (w : Option Bool) : wCode w < 3 := by rcases w with _ | _ | _ <;> decide

@[simp] theorem wOfCode?_wCode (w : Option Bool) : wOfCode? (wCode w) = some w := by
  rcases w with _ | _ | _ <;> rfl

@[simp] theorem wCode_inj {w w' : Option Bool} : wCode w = wCode w' ↔ w = w' :=
  code_inj wOfCode?_wCode

theorem places_bits (v : VexDescriptor) :
    v.bits % 4 = kindCode v.fields.kind ∧ v.bits / 4 % 4 = roleCode v.fields.role ∧
      v.bits / 16 % 4 = sizeCode v.fields.vectorSize ∧ v.bits / 64 % 4 = v.fields.simd.pp ∧
      v.bits / 256 % 16 = v.fields.map.index ∧ v.bits / 4096 = wCode v.fields.w := by
  have hkind := kindCode_lt v.fields.kind
  have hrole := roleCode_lt v.fields.role
  have hsize := sizeCode_lt v.fields.vectorSize
  have hsimd := v.fields.simd.pp_lt
  have hmap := v.fields.map.index_lt
  rw [bits]
  omega

theorem bits_lt (v : VexDescriptor) : v.bits < 2 ^ 16 := by
  obtain ⟨-, -, -, -, -, hw⟩ := v.places_bits
  have hlt := wCode_lt v.fields.w
  omega

@[simp] theorem ofBits_bits (v : VexDescriptor) : ofBits v.bits = .ok v := by
  obtain ⟨hkind, hrole, hsize, hsimd, hmap, hw⟩ := v.places_bits
  simp [ofBits, hkind, hrole, hsize, hsimd, hmap, hw]

end VexDescriptor
end X86Encoding
