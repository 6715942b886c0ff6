import X86Encoding.ModRM

set_option autoImplicit false

namespace X86Encoding

@[elab_as_elim]
theorem byteCases {motive : UInt8 → Prop} {m : Nat} (b : UInt8) (hb : b.toNat < m)
    (h : ∀ n < m, motive (.ofNat n)) : motive b := by
  have hmotive := h b.toNat hb
  rwa [UInt8.ofNat_toNat] at hmotive

theorem toNat_lt_of_le_seven {b : UInt8} (h : b ≤ 7) : b.toNat < 8 :=
  Nat.lt_succ_of_le (UInt8.le_iff_toNat_le.1 h)

theorem registerByte_fields {reg : UInt8} (h : reg ≤ 7) :
    ¬((0xC0 : UInt8) ||| reg <<< 3) < 0xC0 ∧ ((0xC0 : UInt8) ||| reg <<< 3) &&& 7 = 0 ∧
      ((0xC0 : UInt8) ||| reg <<< 3) >>> 3 &&& 7 = reg :=
  byteCases reg (toNat_lt_of_le_seven h) (by decide)

namespace ModRM

theorem isDirect_ofByte_iff {b : UInt8} : (ofByte b).isDirect = true ↔ 0xC0 ≤ b :=
  byteCases b b.toNat_lt (by decide +kernel)

@[simp] theorem toByte_ofByte (b : UInt8) : (ofByte b).toByte = b :=
  byteCases b b.toNat_lt (by decide +kernel)

theorem exists_byte {reg : UInt8} (h : reg ≤ 7) (direct : Bool) :
    ∃ b, (ofByte b).reg = reg ∧ (ofByte b).isDirect = direct := by
  have hmemory : (ofByte (reg <<< 3)).reg = reg ∧ (ofByte (reg <<< 3)).isDirect = false :=
    byteCases reg (toNat_lt_of_le_seven h) (by decide)
  obtain ⟨hdirect, -, hreg⟩ := registerByte_fields h
  cases direct with
  | false => exact ⟨_, hmemory⟩
  | true => exact ⟨_, hreg, isDirect_ofByte_iff.2 (UInt8.not_lt.1 hdirect)⟩

end ModRM
end X86Encoding
