import Mathlib.Data.List.Basic
import Mathlib.Data.List.Induction
import X86Encoding.CommandLine.Argument
import X86Encoding.Proofs.Text.Numeral
import X86Encoding.Proofs.Text.Words

/-!
Bytes in hexadecimal. White space and the mark `0x` before a word say nothing; what is left is read
in pairs, each as a number. A number may have a plus sign, and that is the one case in which a pair
is read that is not two digits. What is written for bytes has none, and is read back.
-/

set_option autoImplicit false

namespace X86Encoding.CommandLine

def IsDigitPair (h l : Char) (b : UInt8) : Prop :=
  ∃ high low, Text.digitValue? h = some high ∧ Text.digitValue? l = some low ∧
    b.toNat = 16 * high + low

/-- One digit behind a plus sign, and the byte that it denotes. -/
def IsSignedDigit (h l : Char) (b : UInt8) : Prop :=
  h = '+' ∧ Text.digitValue? l = some b.toNat

def IsPair (h l : Char) (b : UInt8) : Prop := IsDigitPair h l b ∨ IsSignedDigit h l b

/-- A text in pairs of characters, with a byte for each. -/
inductive InPairs (pair : Char → Char → UInt8 → Prop) : Text → List UInt8 → Prop where
  | nil : InPairs pair [] []
  | cons {h l : Char} {b : UInt8} {t : Text} {bytes : List UInt8} (hpair : pair h l b)
      (hrest : InPairs pair t bytes) : InPairs pair (h :: l :: t) (b :: bytes)

section

variable {h l : Char} {b : UInt8} {t : Text} {bytes : List UInt8}

theorem isDigitPair_iff :
    IsDigitPair h l b ↔ Text.IsNumeral 16 [h, l] ∧ b.toNat = Text.numeralValue 16 [h, l] := by
  constructor
  · rintro ⟨high, low, hhigh, hlow, hb⟩
    refine ⟨⟨by simp, by simp [hhigh, hlow]⟩, ?_⟩
    simp [Text.numeralValue, hhigh, hlow, hb, Nat.mul_comm]
  · rintro ⟨⟨-, hdigits⟩, hb⟩
    obtain ⟨high, hhigh⟩ := Text.isDigitIn_sixteen_iff.1 (hdigits h (by simp))
    obtain ⟨low, hlow⟩ := Text.isDigitIn_sixteen_iff.1 (hdigits l (by simp))
    exact ⟨high, low, hhigh, hlow, by simp [hb, Text.numeralValue, hhigh, hlow, Nat.mul_comm]⟩

theorem digitValue?_eq_toNat_iff :
    Text.digitValue? l = some b.toNat ↔
      Text.IsNumeral 16 [l] ∧ b.toNat = Text.numeralValue 16 [l] := by
  constructor
  · intro hl
    exact ⟨⟨by simp, by simp [hl]⟩, by simp [Text.numeralValue, hl]⟩
  · rintro ⟨⟨-, hdigits⟩, hb⟩
    obtain ⟨low, hlow⟩ := Text.isDigitIn_sixteen_iff.1 (hdigits l (by simp))
    simp [hb, Text.numeralValue, hlow]

theorem isPair_iff :
    IsPair h l b ↔ ∃ digits, Text.IsSigned [h, l] digits ∧ Text.IsNumeral 16 digits ∧
      b.toNat = Text.numeralValue 16 digits := by
  rw [IsPair, isDigitPair_iff, IsSignedDigit, digitValue?_eq_toNat_iff]
  constructor
  · rintro (hb | ⟨rfl, hb⟩)
    · exact ⟨_, .inl rfl, hb⟩
    · exact ⟨_, .inr rfl, hb⟩
  · rintro ⟨digits, rfl | hsigned, hb⟩
    · exact .inl hb
    · obtain ⟨rfl, rfl⟩ := List.cons.inj hsigned
      exact .inr ⟨rfl, hb⟩

theorem readNumber_pair : Text.readNumber 16 256 [h, l] = .ok b.toNat ↔ IsPair h l b := by
  rw [Text.readNumber_eq_ok_iff (by decide) (by decide), isPair_iff]
  simp only [and_iff_left (b.toNat_lt : b.toNat < 256)]

theorem readPairs_cons_eq_ok_iff :
    readPairs (h :: l :: t) = .ok bytes ↔
      ∃ b rest, IsPair h l b ∧ readPairs t = .ok rest ∧ bytes = b :: rest := by
  rw [readPairs]
  cases hpair : Text.readNumber 16 256 [h, l] with
  | error fault =>
    refine iff_of_false nofun ?_
    rintro ⟨b, -, hb, -⟩
    cases hpair.symm.trans (readNumber_pair.2 hb)
  | ok n =>
    obtain ⟨-, -, -, -, hlt⟩ := (Text.readNumber_eq_ok_iff (by decide) (by decide)).1 hpair
    obtain ⟨b, rfl⟩ : ∃ b : UInt8, n = b.toNat := ⟨_, (UInt8.toNat_ofNat_of_lt' hlt).symm⟩
    have hb : IsPair h l b := readNumber_pair.1 hpair
    have hunique : ∀ b', IsPair h l b' → b = b' := fun b' hb' =>
      UInt8.toNat_inj.1 (Except.ok.inj (hpair.symm.trans (readNumber_pair.2 hb')))
    cases hrest : readPairs t with
    | error fault =>
      refine iff_of_false nofun ?_
      rintro ⟨-, rest, -, hread, -⟩
      cases hread
    | ok rest =>
      simp only [UInt8.ofNat_toNat, Except.ok.injEq]
      constructor
      · rintro rfl
        exact ⟨b, rest, hb, rfl, rfl⟩
      · rintro ⟨b', -, hb', rfl, rfl⟩
        rw [hunique b' hb']

theorem readPairs_eq_ok_iff (heven : t.length % 2 = 0) :
    readPairs t = .ok bytes ↔ InPairs IsPair t bytes := by
  induction t using List.twoStepInduction generalizing bytes with
  | nil =>
    constructor
    · intro h
      obtain rfl := Except.ok.inj h
      exact .nil
    · rintro ⟨⟩
      rfl
  | singleton => cases heven
  | cons_cons h l t ih _ =>
    rw [readPairs_cons_eq_ok_iff]
    have hrest : t.length % 2 = 0 := by
      simp only [List.length_cons] at heven
      omega
    constructor
    · rintro ⟨b, rest, hb, hread, rfl⟩
      exact .cons hb ((ih hrest).1 hread)
    · rintro ⟨⟩
      rename_i hb hpairs
      exact ⟨_, _, hb, (ih hrest).2 hpairs, rfl⟩

namespace InPairs

theorem length_eq {pair : Char → Char → UInt8 → Prop} (h : InPairs pair t bytes) :
    t.length = 2 * bytes.length := by
  induction h with
  | nil => rfl
  | cons _ _ ih =>
    simp only [List.length_cons, ih]
    omega

theorem forall_mem {pair : Char → Char → UInt8 → Prop} {p : Char → Prop}
    (hpair : ∀ h l b, pair h l b → p h ∧ p l) (h : InPairs pair t bytes) : ∀ c ∈ t, p c := by
  induction h with
  | nil => exact nofun
  | cons hb _ ih =>
    obtain ⟨hh, hl⟩ := hpair _ _ _ hb
    exact List.forall_mem_cons.2 ⟨hh, List.forall_mem_cons.2 ⟨hl, ih⟩⟩

theorem mono {pair pair' : Char → Char → UInt8 → Prop} (h : InPairs pair t bytes)
    (himp : ∀ h ∈ t, ∀ l b, pair h l b → pair' h l b) : InPairs pair' t bytes := by
  induction h with
  | nil => exact .nil
  | cons hb _ ih =>
    refine .cons (himp _ List.mem_cons_self _ _ hb) (ih fun h hmem => himp h ?_)
    exact List.mem_cons_of_mem _ (List.mem_cons_of_mem _ hmem)

theorem isPair_iff (hplus : '+' ∉ t) : InPairs IsPair t bytes ↔ InPairs IsDigitPair t bytes := by
  constructor
  · intro h
    refine h.mono fun c hc l b hb => hb.resolve_right ?_
    rintro ⟨rfl, -⟩
    exact hplus hc
  · exact fun h => h.mono fun _ _ _ _ hb => .inl hb

theorem exists_iff : (∃ bytes, InPairs IsDigitPair t bytes) ↔
    t.length % 2 = 0 ∧ ∀ c ∈ t, Text.isHexDigit c = true := by
  constructor
  · rintro ⟨bytes, h⟩
    refine ⟨by rw [h.length_eq, Nat.mul_mod_right], h.forall_mem ?_⟩
    rintro h l b ⟨high, low, hhigh, hlow, -⟩
    exact ⟨Option.isSome_of_eq_some hhigh, Option.isSome_of_eq_some hlow⟩
  · rintro ⟨heven, hdigits⟩
    induction t using List.twoStepInduction with
    | nil => exact ⟨[], .nil⟩
    | singleton => cases heven
    | cons_cons h l t ih _ =>
      simp only [List.forall_mem_cons] at hdigits
      obtain ⟨hh, hl, ht⟩ := hdigits
      obtain ⟨high, hhigh⟩ := Option.isSome_iff_exists.1 hh
      obtain ⟨low, hlow⟩ := Option.isSome_iff_exists.1 hl
      have hlt : 16 * high + low < 256 := by
        have hhighcases := Text.digitValue?_cases hhigh
        have hlowcases := Text.digitValue?_cases hlow
        omega
      have hrest : t.length % 2 = 0 := by
        simp only [List.length_cons] at heven
        omega
      obtain ⟨bytes, hbytes⟩ := ih hrest ht
      exact ⟨_, .cons ⟨high, low, hhigh, hlow, UInt8.toNat_ofNat_of_lt' hlt⟩ hbytes⟩

end InPairs

theorem toNat_lt_of_isPair (hb : IsPair h l b) : h.toNat < 128 ∧ l.toNat < 128 := by
  have hdigit : ∀ {c : Char} {d : Nat}, Text.digitValue? c = some d → c.toNat < 128 := by
    intro c d hd
    have hcases := Text.digitValue?_cases hd
    omega
  obtain ⟨high, low, hhigh, hlow, -⟩ | ⟨rfl, hlow⟩ := hb
  · exact ⟨hdigit hhigh, hdigit hlow⟩
  · exact ⟨by decide, hdigit hlow⟩

theorem readHexBytes_eq_ok_iff :
    readHexBytes t = .ok bytes ↔ InPairs IsPair (hexDigits t) bytes := by
  rw [readHexBytes]
  by_cases hshape : (isAscii (hexDigits t) && (hexDigits t).length % 2 == 0) = true
  · rw [if_pos hshape]
    rw [Bool.and_eq_true, beq_iff_eq] at hshape
    exact readPairs_eq_ok_iff hshape.2
  · rw [if_neg hshape]
    refine iff_of_false nofun fun hpairs => hshape ?_
    have hascii := hpairs.forall_mem fun _ _ _ hb => toNat_lt_of_isPair hb
    rw [Bool.and_eq_true, beq_iff_eq, hpairs.length_eq, Nat.mul_mod_right]
    exact ⟨List.all_eq_true.2 fun c hc => decide_eq_true (hascii c hc), rfl⟩

theorem isDigitPair_hexByte (b : UInt8) :
    IsDigitPair (Nat.digitChar (b.toNat / 16)) (Nat.digitChar (b.toNat % 16)) b :=
  ⟨_, _, Text.digitValue?_digitChar (Text.toNat_div_lt b),
    Text.digitValue?_digitChar (Nat.mod_lt _ (by decide)), (Nat.div_add_mod b.toNat 16).symm⟩

theorem inPairs_hexByte (bytes : List UInt8) :
    InPairs IsDigitPair (bytes.flatMap Text.hexByte) bytes := by
  induction bytes with
  | nil => exact .nil
  | cons b bytes ih => exact .cons (isDigitPair_hexByte b) ih

@[simp] theorem dropHexMark_hexByte (b : UInt8) :
    dropHexMark (Text.hexByte b) = Text.hexByte b := by
  have hdigit : Nat.digitChar (b.toNat % 16) ≠ 'x' := by
    intro h
    have hvalue := Text.digitValue?_digitChar (Nat.mod_lt b.toNat (by decide : 16 > 0))
    rw [h] at hvalue
    cases hvalue
  have hmark : "0x".toList.isPrefixOf? (Text.hexByte b) = none := by
    refine Option.eq_none_iff_forall_ne_some.2 fun rest hrest => hdigit ?_
    have hcons : '0' :: 'x' :: rest = Text.hexByte b :=
      List.isPrefixOf?_eq_some_iff_append_eq.1 hrest
    exact (List.cons.inj (List.cons.inj hcons).2).1.symm
  rw [dropHexMark, hmark, Option.getD_none]

theorem hexDigits_bytesText (bytes : List UInt8) :
    hexDigits (bytesText bytes) = bytes.flatMap Text.hexByte := by
  have hwords : ∀ w ∈ bytes.map Text.hexByte, Text.IsWord w := by
    intro w hw
    obtain ⟨b, -, rfl⟩ := List.mem_map.1 hw
    exact Text.isWord_hexByte b
  simp [hexDigits, bytesText, Text.words_joinWith hwords, List.flatMap_map]

end

/-- A text is read exactly if what is left of it falls into pairs, of two digits or of a plus sign
and a digit. Without a plus sign it is read exactly if there are hexadecimal digits alone and an
even number of them, and then as the bytes that they denote two by two. Written bytes are read back
as they are. -/
theorem readHexBytes_inPairs (t : Text) :
    (∀ bytes, readHexBytes t = .ok bytes ↔ InPairs IsPair (hexDigits t) bytes) ∧
    ('+' ∉ hexDigits t →
      (∀ bytes, readHexBytes t = .ok bytes ↔ InPairs IsDigitPair (hexDigits t) bytes) ∧
      ((∃ bytes, readHexBytes t = .ok bytes) ↔
        (hexDigits t).length % 2 = 0 ∧ ∀ c ∈ hexDigits t, Text.isHexDigit c = true)) ∧
    ∀ bytes, readHexBytes (bytesText bytes) = .ok bytes := by
  refine ⟨fun bytes => readHexBytes_eq_ok_iff, fun hplus => ?_, fun bytes => ?_⟩
  · have hdigits : ∀ bytes, readHexBytes t = .ok bytes ↔ InPairs IsDigitPair (hexDigits t) bytes :=
      fun bytes => readHexBytes_eq_ok_iff.trans (InPairs.isPair_iff hplus)
    exact ⟨hdigits, (exists_congr hdigits).trans InPairs.exists_iff⟩
  · rw [readHexBytes_eq_ok_iff, hexDigits_bytesText]
    exact (inPairs_hexByte bytes).mono fun _ _ _ _ hb => .inl hb

theorem readHexBytes_inPairs_regrouped : '+' ∉ hexDigits "0xd 0xeA f".toList ∧
    InPairs IsDigitPair (hexDigits "0xd 0xeA f".toList) [0xDE, 0xAF] := by
  have hplus : '+' ∉ hexDigits "0xd 0xeA f".toList := by decide
  exact ⟨hplus, (((readHexBytes_inPairs "0xd 0xeA f".toList).2.1 hplus).1 _).1 rfl⟩

/-- A plus sign is no digit, but is taken for the first of a pair. -/
theorem not_readHexBytes_iff_digits : ¬∀ t, (∃ bytes, readHexBytes t = .ok bytes) ↔
    (hexDigits t).length % 2 = 0 ∧ ∀ c ∈ hexDigits t, Text.isHexDigit c = true := by
  intro h
  have hread : readHexBytes "+7".toList = .ok [7] := rfl
  have hdigit : Text.isHexDigit '+' = true := ((h "+7".toList).1 ⟨_, hread⟩).2 '+' (by decide)
  cases hdigit

end X86Encoding.CommandLine
