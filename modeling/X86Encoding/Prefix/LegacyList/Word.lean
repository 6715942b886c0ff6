import X86Encoding.Prefix.Legacy

/-!
Lists of prefixes as numbers: the prefixes are digits in base 11, the first one least
significant, and the number of prefixes stands above them from bit 29 on. Putting a digit in,
taking one out and replacing one are arithmetic on 32-bit words that does not overflow as long
as there are at most seven digits.
-/

set_option autoImplicit false

namespace X86Encoding

namespace PrefixList

@[grind] def capacity : Nat := 7

def digits : List LegacyPrefix → Nat
  | [] => 0
  | p :: ps => p.index + 11 * digits ps

def pack (ps : List LegacyPrefix) : Nat := ps.length * 2 ^ 29 + digits ps

theorem digits_append (ps qs : List LegacyPrefix) :
    digits (ps ++ qs) = digits ps + 11 ^ ps.length * digits qs := by
  induction ps with
  | nil => simp [digits]
  | cons p ps ih =>
    simp only [List.cons_append, digits, ih, List.length_cons, Nat.pow_succ]
    rw [Nat.mul_add, Nat.mul_comm (11 ^ ps.length) 11, Nat.mul_assoc]
    omega

theorem digits_lt (ps : List LegacyPrefix) : digits ps < 11 ^ ps.length := by
  induction ps with
  | nil => simp [digits]
  | cons p ps ih =>
    have := p.index_lt
    simp only [digits, List.length_cons, Nat.pow_succ]
    omega

theorem digits_lt_of_length {ps : List LegacyPrefix} (h : ps.length ≤ capacity) :
    digits ps < 2 ^ 29 :=
  Nat.lt_of_lt_of_le (digits_lt ps)
    (Nat.le_trans (Nat.pow_le_pow_right (by decide) h) (by decide))

def unpack : Nat → Nat → List LegacyPrefix
  | 0, _ => []
  | n + 1, v => .ofIndex v :: unpack n (v / 11)

theorem unpack_digits (ps : List LegacyPrefix) : unpack ps.length (digits ps) = ps := by
  induction ps with
  | nil => rfl
  | cons p ps ih =>
    have h := p.index_lt
    have hd : (p.index + 11 * digits ps) / 11 = digits ps := by omega
    have hm : LegacyPrefix.ofIndex (p.index + 11 * digits ps) = p := by
      rw [← LegacyPrefix.ofIndex_mod]
      have : (p.index + 11 * digits ps) % 11 = p.index := by omega
      rw [this, p.ofIndex_index]
    simp [unpack, digits, hd, hm, ih]

def MulFits (a b : UInt32) : Prop := a.toNat * b.toNat < 2 ^ 32

def AddFits (a b : UInt32) : Prop := a.toNat + b.toNat < 2 ^ 32

theorem toNat_mul_of_fits {a b : UInt32} (h : MulFits a b) :
    (a * b).toNat = a.toNat * b.toNat := by
  rw [UInt32.toNat_mul, Nat.mod_eq_of_lt h]

theorem toNat_add_of_fits {a b : UInt32} (h : AddFits a b) :
    (a + b).toNat = a.toNat + b.toNat := by
  rw [UInt32.toNat_add, Nat.mod_eq_of_lt h]

def unit : UInt32 := 0x20000000

def power (i : Nat) : UInt32 := UInt32.ofNat (11 ^ i)

def assemble (n : Nat) (items : UInt32) : UInt32 := UInt32.ofNat n * unit + items

structure AssembleFits (n : Nat) (items : UInt32) : Prop where
  count : MulFits (UInt32.ofNat n) unit
  sum : AddFits (UInt32.ofNat n * unit) items

theorem toNat_count {n : Nat} (h : n ≤ capacity) :
    (UInt32.ofNat n * unit).toNat = n * 2 ^ 29 ∧ MulFits (UInt32.ofNat n) unit := by
  have hc : capacity = 7 := rfl
  have hu : unit.toNat = 2 ^ 29 := rfl
  have hn : (UInt32.ofNat n).toNat = n := by rw [UInt32.toNat_ofNat']; omega
  have hf : MulFits (UInt32.ofNat n) unit := by rw [MulFits, hn, hu]; omega
  exact ⟨by rw [toNat_mul_of_fits hf, hn, hu], hf⟩

theorem assembleFits {items : UInt32} {ps : List LegacyPrefix} (h : ps.length ≤ capacity)
    (hi : items.toNat = digits ps) : AssembleFits ps.length items := by
  have hd := digits_lt_of_length h
  have hc : capacity = 7 := rfl
  obtain ⟨hm, hf⟩ := toNat_count h
  exact ⟨hf, by rw [AddFits, hm, hi]; omega⟩

theorem assemble_eq_pack {items : UInt32} {ps : List LegacyPrefix} (h : ps.length ≤ capacity)
    (hi : items.toNat = digits ps) : (assemble ps.length items).toNat = pack ps := by
  rw [assemble, toNat_add_of_fits (assembleFits h hi).sum, (toNat_count h).1, hi, pack]

theorem toNat_power {i : Nat} (h : i ≤ capacity) : (power i).toNat = 11 ^ i := by
  have hp : 11 ^ i ≤ 11 ^ capacity := Nat.pow_le_pow_right (by decide) h
  rw [power, UInt32.toNat_ofNat', Nat.mod_eq_of_lt (Nat.lt_of_le_of_lt hp (by decide))]

theorem toNat_index (p : LegacyPrefix) : (UInt32.ofNat p.index).toNat = p.index := by
  cases p <;> decide

/-- Digits with `p` put in at `i`; those from `i` on move up. -/
def insertItems (items : UInt32) (i : Nat) (p : LegacyPrefix) : UInt32 :=
  items / power i * (power i * 11) + UInt32.ofNat p.index * power i + items % power i

def eraseItems (items : UInt32) (i : Nat) : UInt32 :=
  items / (power i * 11) * power i + items % power i

def setItems (items : UInt32) (i : Nat) (p : LegacyPrefix) : UInt32 :=
  items / (power i * 11) * (power i * 11) + UInt32.ofNat p.index * power i + items % power i

theorem div_mod_digits {v : UInt32} {as bs : List LegacyPrefix} (h : as.length ≤ capacity)
    (hv : v.toNat = digits (as ++ bs)) :
    (v / power as.length).toNat = digits bs ∧ (v % power as.length).toNat = digits as := by
  have ha := digits_lt as
  have hp : 0 < 11 ^ as.length := Nat.pow_pos (by decide)
  rw [UInt32.toNat_div, UInt32.toNat_mod, toNat_power h, hv, digits_append]
  constructor
  · rw [Nat.add_mul_div_left _ _ hp, Nat.div_eq_of_lt ha, Nat.zero_add]
  · rw [Nat.add_mul_mod_self_left, Nat.mod_eq_of_lt ha]

theorem toNat_next_power {i : Nat} (h : i < capacity) :
    (power i * 11).toNat = 11 ^ (i + 1) ∧ MulFits (power i) 11 := by
  have hp : 11 ^ (i + 1) ≤ 11 ^ capacity := Nat.pow_le_pow_right (by decide) h
  have hc : (11 : Nat) ^ capacity < 2 ^ 32 := by decide
  have h11 : (11 : UInt32).toNat = 11 := rfl
  have hf : MulFits (power i) 11 := by
    rw [MulFits, toNat_power (by omega), h11, ← Nat.pow_succ]
    omega
  exact ⟨by rw [toNat_mul_of_fits hf, toNat_power (by omega), h11, Nat.pow_succ], hf⟩

theorem div_next_digits {v : UInt32} {as bs : List LegacyPrefix} {q : LegacyPrefix}
    (h : as.length < capacity) (hv : v.toNat = digits (as ++ q :: bs)) :
    (v / (power as.length * 11)).toNat = digits bs := by
  have ha := digits_lt (as ++ [q])
  have hp : 0 < 11 ^ (as ++ [q]).length := Nat.pow_pos (by decide)
  have hs : as ++ q :: bs = (as ++ [q]) ++ bs := by simp
  have hl : (as ++ [q]).length = as.length + 1 := by simp
  rw [UInt32.toNat_div, (toNat_next_power h).1, hv, hs, digits_append, ← hl,
    Nat.add_mul_div_left _ _ hp, Nat.div_eq_of_lt ha, Nat.zero_add]

theorem digits_mul_pow_lt {ps : List LegacyPrefix} {k : Nat} (h : ps.length + k ≤ capacity) :
    digits ps * 11 ^ k < 2 ^ 29 := by
  have hk : 0 < 11 ^ k := Nat.pow_pos (by decide)
  calc digits ps * 11 ^ k
      < 11 ^ ps.length * 11 ^ k := Nat.mul_lt_mul_of_pos_right (digits_lt ps) hk
    _ = 11 ^ (ps.length + k) := (Nat.pow_add ..).symm
    _ ≤ 11 ^ capacity := Nat.pow_le_pow_right (by decide) h
    _ < 2 ^ 29 := by decide

/-- Nothing wraps around where `p` is written at the place `i` of `v`, and the digits `above`
behind it. -/
structure PlaceFits (above v : UInt32) (i : Nat) (p : LegacyPrefix) : Prop where
  next : MulFits (power i) 11
  upper : MulFits above (power i * 11)
  digit : MulFits (UInt32.ofNat p.index) (power i)
  sum : AddFits (above * (power i * 11)) (UInt32.ofNat p.index * power i)
  all : AddFits (above * (power i * 11) + UInt32.ofNat p.index * power i) (v % power i)

structure EraseFits (v : UInt32) (i : Nat) : Prop where
  next : MulFits (power i) 11
  upper : MulFits (v / (power i * 11)) (power i)
  sum : AddFits (v / (power i * 11) * power i) (v % power i)

theorem place_eq_digits {above v : UInt32} {as bs : List LegacyPrefix} (p : LegacyPrefix)
    (h : (as ++ bs).length < capacity) (ha : above.toNat = digits bs)
    (hv : (v % power as.length).toNat = digits as) :
    PlaceFits above v as.length p ∧
      (above * (power as.length * 11) + UInt32.ofNat p.index * power as.length +
        v % power as.length).toNat = digits (as ++ p :: bs) := by
  rw [List.length_append] at h
  have hT : digits (as ++ p :: bs) < 2 ^ 29 :=
    digits_lt_of_length (by simp only [List.length_append, List.length_cons]; omega)
  have hb : digits bs * 11 ^ (as.length + 1) < 2 ^ 29 := digits_mul_pow_lt (by omega)
  have hp : digits [p] * 11 ^ as.length < 2 ^ 29 :=
    digits_mul_pow_lt (by simp only [List.length_singleton]; omega)
  have hs : digits (as ++ p :: bs) =
      digits bs * 11 ^ (as.length + 1) + p.index * 11 ^ as.length + digits as := by
    have hu : 11 ^ as.length * (11 * digits bs) = digits bs * 11 ^ (as.length + 1) := by
      rw [Nat.pow_succ]; ac_rfl
    have hp : 11 ^ as.length * p.index = p.index * 11 ^ as.length := Nat.mul_comm ..
    rw [digits_append, digits, Nat.mul_add, hu, hp]
    omega
  simp only [digits, Nat.mul_zero, Nat.add_zero] at hp
  obtain ⟨hn, hnext⟩ := toNat_next_power (i := as.length) (by omega)
  have hi := toNat_power (i := as.length) (by omega)
  have hupper : MulFits above (power as.length * 11) := by rw [MulFits, ha, hn]; omega
  have hdigit : MulFits (UInt32.ofNat p.index) (power as.length) := by
    rw [MulFits, toNat_index, hi]; omega
  have h1 := toNat_mul_of_fits hupper
  have h2 := toNat_mul_of_fits hdigit
  rw [ha, hn] at h1
  rw [toNat_index, hi] at h2
  have hsum : AddFits (above * (power as.length * 11))
      (UInt32.ofNat p.index * power as.length) := by
    rw [AddFits, h1, h2]; omega
  have h3 := toNat_add_of_fits hsum
  rw [h1, h2] at h3
  have hall : AddFits (above * (power as.length * 11) + UInt32.ofNat p.index * power as.length)
      (v % power as.length) := by
    rw [AddFits, h3, hv]; omega
  exact ⟨⟨hnext, hupper, hdigit, hsum, hall⟩, by rw [toNat_add_of_fits hall, h3, hv, hs]⟩

theorem insertItems_eq_digits {v : UInt32} {as bs : List LegacyPrefix} (p : LegacyPrefix)
    (h : (as ++ bs).length < capacity) (hv : v.toNat = digits (as ++ bs)) :
    PlaceFits (v / power as.length) v as.length p ∧
      (insertItems v as.length p).toNat = digits (as ++ p :: bs) := by
  obtain ⟨hd, hm⟩ := div_mod_digits (by rw [List.length_append] at h; omega) hv
  exact place_eq_digits p h hd hm

theorem setItems_eq_digits {v : UInt32} {as bs : List LegacyPrefix} {q : LegacyPrefix}
    (p : LegacyPrefix) (h : (as ++ q :: bs).length ≤ capacity)
    (hv : v.toNat = digits (as ++ q :: bs)) :
    PlaceFits (v / (power as.length * 11)) v as.length p ∧
      (setItems v as.length p).toNat = digits (as ++ p :: bs) := by
  rw [List.length_append, List.length_cons] at h
  have hd := div_next_digits (by omega) hv
  obtain ⟨_, hm⟩ := div_mod_digits (by omega) hv
  exact place_eq_digits p (by rw [List.length_append]; omega) hd hm

theorem eraseItems_eq_digits {v : UInt32} {as bs : List LegacyPrefix} {q : LegacyPrefix}
    (h : (as ++ q :: bs).length ≤ capacity) (hv : v.toNat = digits (as ++ q :: bs)) :
    EraseFits v as.length ∧ (eraseItems v as.length).toNat = digits (as ++ bs) := by
  rw [List.length_append, List.length_cons] at h
  have hT : digits (as ++ bs) < 2 ^ 29 :=
    digits_lt_of_length (by rw [List.length_append]; omega)
  have hd := div_next_digits (by omega) hv
  obtain ⟨_, hm⟩ := div_mod_digits (by omega) hv
  have hi := toNat_power (i := as.length) (by omega)
  have hb : digits bs * 11 ^ as.length < 2 ^ 29 := digits_mul_pow_lt (by omega)
  have hs : digits (as ++ bs) = digits bs * 11 ^ as.length + digits as := by
    rw [digits_append, Nat.mul_comm, Nat.add_comm]
  have hupper : MulFits (v / (power as.length * 11)) (power as.length) := by
    rw [MulFits, hd, hi]; omega
  have h1 := toNat_mul_of_fits hupper
  rw [hd, hi] at h1
  have hsum : AddFits (v / (power as.length * 11) * power as.length) (v % power as.length) := by
    rw [AddFits, h1, hm]; omega
  exact ⟨⟨(toNat_next_power (by omega)).2, hupper, hsum⟩,
    by rw [eraseItems, toNat_add_of_fits hsum, h1, hm, hs]⟩

end PrefixList
end X86Encoding
