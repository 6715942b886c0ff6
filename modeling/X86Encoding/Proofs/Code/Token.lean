import X86Encoding.Code.Token
import X86Encoding.Proofs.Byte
import X86Encoding.Proofs.Text.Words

set_option autoImplicit false

namespace X86Encoding.Token

theorem marker_mem_keywords (m : Marker) : .marker m ∈ keywords := by
  cases m <;> decide

theorem ofKeyword?_keyword : ∀ t ∈ keywords, ofKeyword? t.spelling = some t := by
  decide +kernel

theorem ofByteText?_keyword : ∀ t ∈ keywords, ofByteText? t.spelling = none := by
  decide +kernel

theorem isWord_keyword : ∀ t ∈ keywords, Text.IsWord t.spelling := by
  decide +kernel

theorem ofWord?_keyword {t : Token} (h : t ∈ keywords) : ofWord? t.spelling = some t := by
  rw [ofWord?, ofKeyword?_keyword t h]
  rfl

/-- What is read as a byte is read as that byte only: no keyword is spelled like it. -/
theorem ofKeyword?_eq_none {w : Text} {t : Token} (hw : Text.lower w = w)
    (h : ofByteText? w = some t) : ofKeyword? w = none := by
  rw [ofKeyword?, List.find?_eq_none]
  intro k hk heq
  have hk' := ofByteText?_keyword k hk
  rw [eq_of_beq heq, hw, h] at hk'
  cases hk'

theorem ofWord?_of_ofByteText? {w : Text} {t : Token} (hw : Text.lower w = w)
    (h : ofByteText? w = some t) : ofWord? w = some t := by
  rw [ofWord?, ofKeyword?_eq_none hw h, h]
  rfl

theorem ofByteText?_hexByte_append (b : UInt8) (rest : Text) :
    ofByteText? (Text.hexByte b ++ rest) =
      if rest = [] then some (.byte b)
      else if Text.lower rest = "+r".toList then some (.bytePlusRegister b)
      else if Text.lower rest = "+c".toList then some (.bytePlusCondition b)
      else none := by
  have hb : UInt8.ofNat (b.toNat / 16 * 16 + b.toNat % 16) = b := by
    rw [Nat.div_add_mod', UInt8.ofNat_toNat]
  simp [Text.hexByte, ofByteText?, Nat.mod_lt, hb]

theorem ofWord?_hexByte (b : UInt8) : ofWord? (Text.hexByte b) = some (.byte b) := by
  apply ofWord?_of_ofByteText? (Text.lower_hexByte b)
  rw [← List.append_nil (Text.hexByte b), ofByteText?_hexByte_append, if_pos rfl]

theorem ofWord?_hexByte_append {b : UInt8} {rest : Text} {t : Token}
    (hrest : Text.lower rest = rest) (h : ofByteText? (Text.hexByte b ++ rest) = some t) :
    ofWord? (Text.hexByte b ++ rest) = some t := by
  apply ofWord?_of_ofByteText? _ h
  simp [hrest]

/-- Only a digit can be out of range, and only the place of a vector prefix has no spelling of
its own. -/
def IsSpelled (t : Token) : Prop := t ≠ .vex ∧ ∀ reg, t = .modRMReg reg → reg ≤ 7

theorem digit_cases {reg : UInt8} (h : reg ≤ 7) :
    ofWord? (spelling (.modRMReg reg)) = some (.modRMReg reg) ∧
      Text.IsWord (spelling (.modRMReg reg)) :=
  byteCases reg (toNat_lt_of_le_seven h) (by decide)

theorem ofWord?_spelling {t : Token} (h : t.IsSpelled) : ofWord? t.spelling = some t := by
  -- bytes and digits go by their values, everything else is in the list of keywords
  cases t with
  | byte b => exact ofWord?_hexByte b
  | bytePlusRegister b =>
    exact ofWord?_hexByte_append (by decide) (by rw [ofByteText?_hexByte_append]; rfl)
  | bytePlusCondition b =>
    exact ofWord?_hexByte_append (by decide) (by rw [ofByteText?_hexByte_append]; rfl)
  | modRMReg reg => exact (digit_cases (h.2 reg rfl)).1
  | vex => exact absurd rfl h.1
  | marker m => exact ofWord?_keyword (marker_mem_keywords m)
  | _ => exact ofWord?_keyword (by decide)

theorem isWord_spelling {t : Token} (h : t.IsSpelled) : Text.IsWord t.spelling := by
  cases t with
  | byte b => exact Text.isWord_hexByte b
  | bytePlusRegister b => exact (Text.isWord_hexByte b).append (by decide)
  | bytePlusCondition b => exact (Text.isWord_hexByte b).append (by decide)
  | modRMReg reg => exact (digit_cases (h.2 reg rfl)).2
  | vex => exact absurd rfl h.1
  | marker m => exact isWord_keyword _ (marker_mem_keywords m)
  | _ => exact isWord_keyword _ (by decide)

theorem isSpelled_of_mem_keywords {t : Token} (h : t ∈ keywords) : t.IsSpelled := by
  constructor
  · rintro rfl
    simp [keywords, plainKeywords] at h
  · rintro reg rfl
    simp [keywords, plainKeywords] at h

theorem isSpelled_of_ofByteText? {w : Text} {t : Token} (h : ofByteText? w = some t) :
    t.IsSpelled := by
  have hcases : ∃ b, t = .byte b ∨ t = .bytePlusRegister b ∨ t = .bytePlusCondition b := by
    unfold ofByteText? at h
    split at h
    · split at h
      · split at h
        · exact ⟨_, .inl (Option.some.inj h).symm⟩
        · split at h
          · exact ⟨_, .inr (.inl (Option.some.inj h).symm)⟩
          · split at h
            · exact ⟨_, .inr (.inr (Option.some.inj h).symm)⟩
            · cases h
      · cases h
    · cases h
  obtain ⟨b, rfl | rfl | rfl⟩ := hcases <;> constructor <;> simp

theorem isSpelled_of_ofDigitText? {w : Text} {t : Token} (h : ofDigitText? w = some t) :
    t.IsSpelled := by
  unfold ofDigitText? at h
  split at h
  · next d =>
    split at h
    · next hd =>
      cases h
      refine ⟨by simp, ?_⟩
      rintro reg hreg
      cases hreg
      have hle : d.toNat ≤ '7'.toNat := by
        simp only [Bool.and_eq_true, decide_eq_true_eq] at hd
        exact hd.2
      rw [UInt8.le_iff_toNat_le, UInt8.toNat_ofNat']
      simp at hle ⊢
      omega
    · cases h
  · cases h

theorem isSpelled_of_ofWord? {w : Text} {t : Token} (h : ofWord? w = some t) : t.IsSpelled := by
  simp only [ofWord?, Option.or_eq_some_iff] at h
  rcases h with (hkeyword | ⟨-, hbyte⟩) | ⟨-, hdigit⟩
  · exact isSpelled_of_mem_keywords (List.mem_of_find?_eq_some hkeyword)
  · exact isSpelled_of_ofByteText? hbyte
  · exact isSpelled_of_ofDigitText? hdigit

end X86Encoding.Token
