import Mathlib.Data.List.Basic
import Mathlib.Data.List.TakeWhile
import X86Encoding.CommandLine.Argument
import X86Encoding.Proofs.Pattern.Constants
import X86Encoding.Proofs.Text.Numeral

/-!
Bindings of pattern variables. The width of the value is the length of the text behind the mark
`0b`, without separators, and the value is the number that this text is read as. So the two belong
together as far as the text consists of binary digits alone; a plus sign counts for the width and
not for the value.
-/

set_option autoImplicit false

namespace X86Encoding.CommandLine

open Pattern (bitValue binaryValue strip)

section Digits

variable {c : Char} {t : Text}

theorem isBit_iff : Pattern.isBit c = true ↔ c = '0' ∨ c = '1' := by
  rw [Pattern.isBit, Bool.or_eq_true, beq_iff_eq, beq_iff_eq]

@[simp] theorem isDigitIn_two_iff : Text.IsDigitIn 2 c ↔ Pattern.isBit c = true := by
  rw [isBit_iff]
  constructor
  · rintro ⟨d, hd⟩
    obtain ⟨hvalue, hlt⟩ := Text.digitIn_eq_some_iff.1 hd
    have hcases := Text.digitValue?_cases hvalue
    rw [← Char.toNat_inj, ← Char.toNat_inj]
    simp only [Char.reduceToNat]
    omega
  · rintro (rfl | rfl)
    · exact ⟨0, rfl⟩
    · exact ⟨1, rfl⟩

theorem isNumeral_two_iff :
    Text.IsNumeral 2 t ↔ t ≠ [] ∧ ∀ c ∈ t, Pattern.isBit c = true := by
  simp [Text.IsNumeral]

theorem numeralValue_two (h : ∀ c ∈ t, Pattern.isBit c = true) :
    Text.numeralValue 2 t = binaryValue t := by
  induction t with
  | nil => rfl
  | cons c t ih =>
    obtain ⟨hc, ht⟩ := List.forall_mem_cons.1 h
    have hvalue : (Text.digitValue? c).getD 0 = (bitValue c).toNat := by
      obtain rfl | rfl := isBit_iff.1 hc <;> rfl
    rw [Text.numeralValue, binaryValue, ih ht, hvalue]

end Digits

/-- The digits give the value, and the text in which they stand the width. -/
structure GivesBits (text digits : Text) (v : Bits) : Prop where
  ne_nil : digits ≠ []
  isBit : ∀ c ∈ digits, Pattern.isBit c = true
  length_le : text.length ≤ Bits.maxLength
  length_eq : v.length.toNat = text.length
  value_eq : v.value.toNat = binaryValue digits

def dropBinaryMark (t : Text) : Text := ("0b".toList.isPrefixOf? t).getD t

section Reading

variable {t text digits : Text} {v : Bits}

theorem make_eq_ok_iff {value : UInt64} {length : UInt8} :
    Bits.make value length = .ok v ↔
      length.toNat ≤ Bits.maxLength ∧ value.toNat < 2 ^ length.toNat ∧ v = ⟨value, length⟩ := by
  unfold Bits.make
  split
  · exact iff_of_false nofun fun h => by omega
  split
  · rename_i hlength hvalue
    rw [Except.ok.injEq, and_iff_right (Nat.le_of_not_lt hlength), and_iff_right hvalue, eq_comm]
  · rename_i hvalue
    exact iff_of_false nofun fun h => hvalue h.2.1

theorem readBits?_eq_some_iff_make :
    readBits? t = some v ↔ ∃ n, Text.readNumber 2 (2 ^ 64) (strip (dropBinaryMark t)) = .ok n ∧
      (strip (dropBinaryMark t)).length < 256 ∧
      Bits.make (.ofNat n) (.ofNat (strip (dropBinaryMark t)).length) = .ok v := by
  have hmade : ∀ x : Except EncodingError Bits, x.toOption = some v ↔ x = .ok v := by
    rintro (e | w) <;> simp [Except.toOption]
  rw [readBits?, show (("0b".toList.isPrefixOf? t).getD t).filter (· ≠ '_') =
    strip (dropBinaryMark t) from rfl]
  generalize strip (dropBinaryMark t) = text
  cases hread : Text.readNumber 2 (2 ^ 64) text with
  | error fault => simp
  | ok n => by_cases hlength : text.length < 256 <;> simp [hlength, hmade]

theorem givesBits_iff_make (hsigned : Text.IsSigned text digits) :
    GivesBits text digits v ↔ Text.IsNumeral 2 digits ∧ Text.numeralValue 2 digits < 2 ^ 64 ∧
      text.length < 256 ∧
      Bits.make (.ofNat (Text.numeralValue 2 digits)) (.ofNat text.length) = .ok v := by
  have hle : digits.length ≤ text.length := by
    obtain rfl | rfl := hsigned
    · exact Nat.le_refl _
    · exact Nat.le_succ _
  have hfits : binaryValue digits < 2 ^ text.length :=
    Nat.lt_of_lt_of_le (Pattern.binaryValue_lt digits) (Nat.pow_le_pow_right (by decide) hle)
  rw [isNumeral_two_iff, make_eq_ok_iff]
  constructor
  · intro h
    have hlength : text.length < 256 := Nat.lt_of_le_of_lt h.length_le (by decide)
    have hnumber : Text.numeralValue 2 digits = v.value.toNat :=
      (numeralValue_two h.isBit).trans h.value_eq.symm
    have hword : v.value.toNat < 2 ^ 64 := v.value.toNat_lt
    rw [hnumber, UInt64.ofNat_toNat, ← h.length_eq, UInt8.ofNat_toNat, h.length_eq]
    rw [← h.value_eq] at hfits
    exact ⟨⟨h.ne_nil, h.isBit⟩, hword, hlength, h.length_le, hfits, rfl⟩
  · rintro ⟨⟨hne, hbit⟩, hword, hlength, hmax, -, rfl⟩
    rw [UInt8.toNat_ofNat_of_lt' hlength] at hmax
    exact ⟨hne, hbit, hmax, UInt8.toNat_ofNat_of_lt' hlength,
      (UInt64.toNat_ofNat_of_lt' hword).trans (numeralValue_two hbit)⟩

theorem readBits?_eq_some_iff :
    readBits? t = some v ↔ ∃ digits, Text.IsSigned (strip (dropBinaryMark t)) digits ∧
      GivesBits (strip (dropBinaryMark t)) digits v := by
  rw [readBits?_eq_some_iff_make]
  simp only [@Text.readNumber_eq_ok_iff 2 (2 ^ 64) _ _ (by decide) (by decide)]
  constructor
  · rintro ⟨_, ⟨digits, hsigned, hdigits, rfl, hlt⟩, hlength, hmake⟩
    exact ⟨digits, hsigned, (givesBits_iff_make hsigned).2 ⟨hdigits, hlt, hlength, hmake⟩⟩
  · rintro ⟨digits, hsigned, hbits⟩
    obtain ⟨hdigits, hlt, hlength, hmake⟩ := (givesBits_iff_make hsigned).1 hbits
    exact ⟨_, ⟨digits, hsigned, hdigits, rfl, hlt⟩, hlength, hmake⟩

/-- Nothing with a mark in it is digits, so the mark can be left out where it stands. -/
theorem exists_unmarked_iff {p : Text → Prop} (hp : ∀ {text}, p text → 'b' ∉ text) :
    (∃ text, (t = text ∨ t = '0' :: 'b' :: text) ∧ p (strip text)) ↔
      p (strip (dropBinaryMark t)) := by
  have hmark : ∀ rest, "0b".toList.isPrefixOf? t = some rest ↔ '0' :: 'b' :: rest = t := fun rest =>
    List.isPrefixOf?_eq_some_iff_append_eq
  cases hdrop : "0b".toList.isPrefixOf? t with
  | none =>
    rw [dropBinaryMark, hdrop, Option.getD_none]
    constructor
    · rintro ⟨text, rfl | rfl, htext⟩
      · exact htext
      · cases hdrop.symm.trans ((hmark text).2 rfl)
    · exact fun h => ⟨t, .inl rfl, h⟩
  | some rest =>
    obtain rfl := (hmark rest).1 hdrop
    rw [dropBinaryMark, hdrop, Option.getD_some]
    constructor
    · rintro ⟨text, rfl | h, htext⟩
      · exact absurd (by simp [strip]) (hp htext)
      · rwa [(List.cons.inj (List.cons.inj h).2).2]
    · exact fun h => ⟨rest, .inr rfl, h⟩

theorem splitAtEquals?_eq_some_iff {name value : Text} :
    splitAtEquals? t = some (name, value) ↔ '=' ∉ name ∧ t = name ++ '=' :: value := by
  constructor
  · intro h
    unfold splitAtEquals? at h
    split at h
    · cases h
    · rename_i d rest hrest
      obtain ⟨rfl, rfl⟩ := Prod.mk.inj (Option.some.inj h)
      have hd : d = '=' := by
        have hstop := List.head?_dropWhile_not (· != '=') t
        rw [hrest] at hstop
        simpa using hstop
      refine ⟨fun hmem => by simpa using List.mem_takeWhile_imp hmem, ?_⟩
      subst hd
      rw [← hrest, List.takeWhile_append_dropWhile]
  · rintro ⟨hname, rfl⟩
    have hbefore : ∀ c ∈ name, (c != '=') = true := fun c hc =>
      bne_iff_ne.2 fun h => hname (h ▸ hc)
    rw [splitAtEquals?, List.dropWhile_append_of_pos hbefore,
      List.takeWhile_append_of_pos hbefore]
    simp

theorem readBinding?_eq_some_iff {c : Char} :
    readBinding? t = some (c, v) ↔ Text.isLower c = true ∧ ∃ value, t = c :: '=' :: value ∧
      readBits? value = some v := by
  constructor
  · intro h
    unfold readBinding? at h
    split at h
    · rename_i letter value hsplit
      split at h
      · rename_i hlower
        obtain ⟨w, hw, hpair⟩ := Option.map_eq_some_iff.1 h
        obtain ⟨rfl, rfl⟩ := Prod.mk.inj hpair
        exact ⟨hlower, value, (splitAtEquals?_eq_some_iff.1 hsplit).2, hw⟩
      · cases h
    · cases h
  · rintro ⟨hlower, value, rfl, hvalue⟩
    have hne : '=' ∉ [c] := by
      rintro hmem
      rw [← List.mem_singleton.1 hmem] at hlower
      cases hlower
    have hsplit : splitAtEquals? (c :: '=' :: value) = some ([c], value) :=
      splitAtEquals?_eq_some_iff.2 ⟨hne, rfl⟩
    simp [readBinding?, hsplit, hlower, hvalue]

def IsBinding (t : Text) (c : Char) (text : Text) : Prop :=
  t = c :: '=' :: text ∨ t = c :: '=' :: '0' :: 'b' :: text

theorem not_mem_of_givesBits (hsigned : Text.IsSigned text digits)
    (hbits : GivesBits text digits v) : 'b' ∉ text := by
  have hdigits : 'b' ∉ digits := fun hmem => by cases hbits.isBit 'b' hmem
  obtain rfl | rfl := hsigned
  · exact hdigits
  · simp [hdigits]

theorem readBinding?_iff_givesBits {c : Char} :
    readBinding? t = some (c, v) ↔ Text.isLower c = true ∧ ∃ text, IsBinding t c text ∧
      ∃ digits, Text.IsSigned (strip text) digits ∧ GivesBits (strip text) digits v := by
  have hunmarked : ∀ value, (∃ text, (value = text ∨ value = '0' :: 'b' :: text) ∧
      ∃ digits, Text.IsSigned (strip text) digits ∧ GivesBits (strip text) digits v) ↔
        readBits? value = some v := by
    intro value
    rw [readBits?_eq_some_iff]
    refine exists_unmarked_iff (p := fun text => ∃ digits, _ ∧ GivesBits text digits v) ?_
    rintro text ⟨digits, hsigned, hbits⟩
    exact not_mem_of_givesBits hsigned hbits
  rw [readBinding?_eq_some_iff]
  refine and_congr_right fun _ => ?_
  constructor
  · rintro ⟨value, rfl, hvalue⟩
    obtain ⟨text, hmark, hbits⟩ := (hunmarked value).2 hvalue
    exact ⟨text, hmark.imp (by rintro rfl; rfl) (by rintro rfl; rfl), hbits⟩
  · rintro ⟨text, rfl | rfl, hbits⟩
    · exact ⟨_, rfl, (hunmarked _).1 ⟨text, .inl rfl, hbits⟩⟩
    · exact ⟨_, rfl, (hunmarked _).1 ⟨text, .inr rfl, hbits⟩⟩

end Reading

section Writing

variable {t : Text} {n width : Nat} {v : Bits}

theorem isBit_digitChar (h : n < 2) : Pattern.isBit (Nat.digitChar n) = true := by
  have hall : ∀ m < 2, Pattern.isBit (Nat.digitChar m) = true := by decide
  exact hall n h

theorem binaryValue_digitChar (h : n < 2) : binaryValue [Nat.digitChar n] = n := by
  have hall : ∀ m < 2, binaryValue [Nat.digitChar m] = m := by decide
  exact hall n h

theorem toDigits_two (n : Nat) : (∀ c ∈ Nat.toDigits 2 n, Pattern.isBit c = true) ∧
    binaryValue (Nat.toDigits 2 n) = n := by
  induction n using Nat.strongRecOn with
  | _ n ih =>
    by_cases hsmall : n < 2
    · rw [Nat.toDigits_of_lt_base hsmall]
      exact ⟨by simp [isBit_digitChar hsmall], binaryValue_digitChar hsmall⟩
    · have hlast : n % 2 < 2 := Nat.mod_lt n (by decide)
      obtain ⟨hbits, hvalue⟩ := ih (n / 2) (by omega)
      rw [Nat.toDigits_of_base_le (by decide) (Nat.le_of_not_lt hsmall),
        Pattern.binaryValue_append, hvalue, binaryValue_digitChar hlast]
      constructor
      · exact List.forall_mem_append.2 ⟨hbits, by simp [isBit_digitChar hlast]⟩
      · exact Nat.div_add_mod' n 2

theorem isBit_binary : ∀ c ∈ Text.binary width n, Pattern.isBit c = true := by
  refine List.forall_mem_append.2 ⟨fun c hc => ?_, (toDigits_two n).1⟩
  rw [List.eq_of_mem_replicate hc]
  rfl

theorem binaryValue_binary : binaryValue (Text.binary width n) = n := by
  have hzeros : ∀ k, binaryValue (List.replicate k '0') = 0 := by
    intro k
    rw [Pattern.binaryValue_replicate]
    exact Nat.zero_mul _
  rw [Text.binary, List.leftpad, Pattern.binaryValue_append, hzeros, (toDigits_two n).2,
    Nat.zero_mul, Nat.zero_add]

theorem length_binary (hwidth : 0 < width) (hn : n < 2 ^ width) :
    (Text.binary width n).length = width := by
  rw [Text.binary, List.length_leftpad]
  exact Nat.max_eq_left ((Nat.length_toDigits_le_iff (by decide) hwidth).2 hn)

theorem strip_of_isBit (h : ∀ c ∈ t, Pattern.isBit c = true) : strip t = t := by
  refine List.filter_eq_self.2 fun c hc => ?_
  obtain rfl | rfl := isBit_iff.1 (h c hc) <;> rfl

theorem text_of_pos (h : 0 < v.length.toNat) :
    v.text = '0' :: 'b' :: Text.binary v.length.toNat v.value.toNat := by
  have hlength : v.isEmpty = false := beq_eq_false_iff_ne.2 fun hzero => by simp [hzero] at h
  rw [Bits.text, hlength]
  rfl

theorem readBinding?_text {c : Char} (hc : Text.isLower c = true)
    {value : UInt64} {length : UInt8} (hmake : Bits.make value length = .ok v)
    (hpos : 0 < v.length.toNat) : readBinding? (c :: '=' :: v.text) = some (c, v) := by
  obtain ⟨hmax, hfits, rfl⟩ := make_eq_ok_iff.1 hmake
  have hlength := length_binary hpos hfits
  have hstrip : strip (Text.binary length.toNat value.toNat) =
      Text.binary length.toNat value.toNat := strip_of_isBit isBit_binary
  rw [readBinding?_iff_givesBits, text_of_pos hpos]
  refine ⟨hc, _, .inr rfl, Text.binary length.toNat value.toNat, .inl hstrip, ?_⟩
  rw [hstrip]
  exact ⟨fun hnil => by rw [hnil] at hlength; exact absurd hlength hpos.ne,
    isBit_binary, hlength.trans_le hmax, hlength.symm, binaryValue_binary.symm⟩

end Writing

/-- A text is read exactly if it is a lower-case letter, `=` and 1 to 64 binary digits, perhaps
behind `0b`, with separators or not. The bits have the width and the value of the digits. A plus
sign in front of the digits is the one thing besides, and counts for the width. Written bits are
read back as they are. -/
theorem readBinding?_bits (t : Text) :
    (∀ c v, readBinding? t = some (c, v) ↔ Text.isLower c = true ∧ ∃ text, IsBinding t c text ∧
      ∃ digits, Text.IsSigned (strip text) digits ∧ GivesBits (strip text) digits v) ∧
    ('+' ∉ t → ∀ c v, readBinding? t = some (c, v) ↔ Text.isLower c = true ∧
      ∃ text, IsBinding t c text ∧ GivesBits (strip text) (strip text) v) ∧
    ∀ c v, Text.isLower c = true → (∃ value length, Bits.make value length = .ok v) →
      1 ≤ v.length.toNat → readBinding? (c :: '=' :: v.text) = some (c, v) := by
  refine ⟨fun c v => readBinding?_iff_givesBits, fun hplus c v => ?_, ?_⟩
  · rw [readBinding?_iff_givesBits]
    refine and_congr_right fun _ => exists_congr fun text => and_congr_right fun hbound => ?_
    have hunsigned : '+' ∉ strip text := by
      intro hmem
      have htext := (List.mem_filter.1 hmem).1
      obtain rfl | rfl := hbound
      · exact hplus (by simp [htext])
      · exact hplus (by simp [htext])
    constructor
    · rintro ⟨digits, hdigits | hdigits, hbits⟩
      · rwa [← hdigits] at hbits
      · exact absurd (hdigits ▸ List.mem_cons_self) hunsigned
    · exact fun hbits => ⟨strip text, .inl rfl, hbits⟩
  · rintro c v hc ⟨value, length, hmake⟩ hpos
    exact readBinding?_text hc hmake hpos

theorem readBinding?_bits_separated : '+' ∉ "a=0b0_1011".toList ∧
    readBinding? "a=0b0_1011".toList = some ('a', ⟨0b1011, 5⟩) ∧
    readBinding? ('a' :: '=' :: Bits.text ⟨0b1011, 5⟩) = some ('a', ⟨0b1011, 5⟩) := by
  have hplus : '+' ∉ "a=0b0_1011".toList := by decide
  obtain ⟨-, hread, hwritten⟩ := readBinding?_bits "a=0b0_1011".toList
  refine ⟨hplus, (hread hplus 'a' ⟨0b1011, 5⟩).2 ⟨rfl, "0_1011".toList, .inr rfl, ?_⟩, ?_⟩
  · exact ⟨by decide, List.all_eq_true.1 rfl, by decide, rfl, rfl⟩
  · exact hwritten 'a' ⟨0b1011, 5⟩ rfl ⟨0b1011, 5, rfl⟩ (by decide)

/-- The plus sign makes two bits of one digit. -/
theorem not_readBinding?_digits : ¬∀ t c v, readBinding? t = some (c, v) ↔
    Text.isLower c = true ∧
      ∃ text, IsBinding t c text ∧ GivesBits (strip text) (strip text) v := by
  intro h
  have hread : readBinding? "a=+1".toList = some ('a', ⟨1, 2⟩) := rfl
  obtain ⟨-, text, hbound | hbound, hbits⟩ := (h _ _ _).1 hread
  · obtain rfl : "+1".toList = text := by simpa using hbound
    cases hbits.isBit '+' (by decide)
  · cases hbound

end X86Encoding.CommandLine
