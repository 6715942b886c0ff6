import X86Encoding.Error
import X86Encoding.Prefix.LegacyList.Word

/-!
Ordered lists of at most seven legacy prefixes, packed into one 32-bit word. Repeats are
allowed. `toList` is the list that the word stands for: it determines the word, and each
operation on the word does to it what its name says.
-/

set_option autoImplicit false

namespace X86Encoding

open PrefixList in
structure PrefixList where
  word : UInt32
  isPacked : ∃ ps : List LegacyPrefix, ps.length ≤ capacity ∧ word.toNat = pack ps
  deriving DecidableEq

namespace PrefixList

def empty : PrefixList := ⟨0, [], by decide, by decide⟩

def size (l : PrefixList) : Nat := (l.word / unit).toNat

def isEmpty (l : PrefixList) : Bool := l.size == 0

def items (l : PrefixList) : UInt32 := l.word % unit

def toList (l : PrefixList) : List LegacyPrefix := unpack l.size l.items.toNat

theorem parts_of_pack {l : PrefixList} {ps : List LegacyPrefix} (h : ps.length ≤ capacity)
    (hw : l.word.toNat = pack ps) : l.size = ps.length ∧ l.items.toNat = digits ps := by
  have hd := digits_lt_of_length h
  have hu : unit.toNat = 2 ^ 29 := rfl
  rw [size, items, UInt32.toNat_div, UInt32.toNat_mod, hu, hw, pack]
  omega

theorem toList_of_pack {l : PrefixList} {ps : List LegacyPrefix} (h : ps.length ≤ capacity)
    (hw : l.word.toNat = pack ps) : l.toList = ps := by
  obtain ⟨hs, hi⟩ := parts_of_pack h hw
  rw [toList, hs, hi, unpack_digits]

theorem length_toList_le (l : PrefixList) : l.toList.length ≤ capacity := by
  obtain ⟨ps, h, hw⟩ := l.isPacked
  rwa [toList_of_pack h hw]

theorem word_eq_pack (l : PrefixList) : l.word.toNat = pack l.toList := by
  obtain ⟨ps, h, hw⟩ := l.isPacked
  rw [toList_of_pack h hw, hw]

@[simp, grind =] theorem size_eq (l : PrefixList) : l.size = l.toList.length :=
  (parts_of_pack l.length_toList_le l.word_eq_pack).1

theorem items_eq (l : PrefixList) : l.items.toNat = digits l.toList :=
  (parts_of_pack l.length_toList_le l.word_eq_pack).2

theorem ext_toList {l m : PrefixList} (h : l.toList = m.toList) : l = m := by
  have hw : l.word = m.word := UInt32.toNat_inj.1 (by rw [word_eq_pack, word_eq_pack, h])
  cases l; cases m; simp_all

@[simp] theorem toList_empty : empty.toList = [] := by decide

theorem insertIdx_length_append (as bs : List LegacyPrefix) (p : LegacyPrefix) :
    (as ++ bs).insertIdx as.length p = as ++ p :: bs := by
  induction as with
  | nil => rfl
  | cons a as ih => simp [ih]

theorem split_toList (l : PrefixList) {i : Nat} (hi : i ≤ l.size) :
    ∃ as bs, l.toList = as ++ bs ∧ as.length = i ∧ l.items.toNat = digits (as ++ bs) := by
  refine ⟨l.toList.take i, l.toList.drop i, (List.take_append_drop ..).symm, ?_, ?_⟩
  · grind
  · rw [List.take_append_drop, l.items_eq]

theorem split_toList_at (l : PrefixList) {i : Nat} (hi : i < l.size) :
    ∃ as q bs, l.toList = as ++ q :: bs ∧ as.length = i ∧
      l.items.toNat = digits (as ++ q :: bs) := by
  obtain ⟨as, bs, hl, ha, hv⟩ := l.split_toList (Nat.le_of_lt hi)
  obtain ⟨q, bs, rfl⟩ := List.exists_cons_of_length_pos (l := bs) (by grind)
  exact ⟨as, q, bs, hl, ha, hv⟩

theorem insert_isPacked (l : PrefixList) {i : Nat} (p : LegacyPrefix) (hi : i ≤ l.size)
    (hc : l.size < capacity) :
    (l.toList.insertIdx i p).length ≤ capacity ∧
      (assemble (l.size + 1) (insertItems l.items i p)).toNat = pack (l.toList.insertIdx i p) := by
  obtain ⟨as, bs, hl, rfl, hv⟩ := l.split_toList hi
  have hn : (as ++ p :: bs).length = l.size + 1 := by grind
  have h : (as ++ p :: bs).length ≤ capacity := by omega
  rw [hl, insertIdx_length_append, ← hn]
  exact ⟨h, assemble_eq_pack h (insertItems_eq_digits p (by grind) hv).2⟩

theorem erase_isPacked (l : PrefixList) {i : Nat} (hi : i < l.size) :
    (l.toList.eraseIdx i).length ≤ capacity ∧
      (assemble (l.size - 1) (eraseItems l.items i)).toNat = pack (l.toList.eraseIdx i) := by
  have hc := l.length_toList_le
  obtain ⟨as, q, bs, hl, rfl, hv⟩ := l.split_toList_at hi
  have hn : (as ++ bs).length = l.size - 1 := by grind
  have h : (as ++ bs).length ≤ capacity := by grind
  have he : (as ++ q :: bs).eraseIdx as.length = as ++ bs := by
    rw [List.eraseIdx_append_of_length_le (Nat.le_refl _), Nat.sub_self]; rfl
  rw [hl] at hc ⊢
  rw [he, ← hn]
  exact ⟨h, assemble_eq_pack h (eraseItems_eq_digits hc hv).2⟩

theorem set_isPacked (l : PrefixList) {i : Nat} (p : LegacyPrefix) (hi : i < l.size) :
    (l.toList.set i p).length ≤ capacity ∧
      (assemble l.size (setItems l.items i p)).toNat = pack (l.toList.set i p) := by
  have hc := l.length_toList_le
  obtain ⟨as, q, bs, hl, rfl, hv⟩ := l.split_toList_at hi
  have hn : (as ++ p :: bs).length = l.size := by grind
  have h : (as ++ p :: bs).length ≤ capacity := by grind
  have he : (as ++ q :: bs).set as.length p = as ++ p :: bs := by
    rw [List.set_append_right _ _ (Nat.le_refl _), Nat.sub_self]; rfl
  rw [hl] at hc ⊢
  rw [he, ← hn]
  exact ⟨h, assemble_eq_pack h (setItems_eq_digits p hc hv).2⟩

/-- A place beyond the end is the first fault, a full list the second. -/
def insert (l : PrefixList) (i : Nat) (p : LegacyPrefix) : Except EncodingError PrefixList :=
  if hi : l.size < i then .error (.argumentRange .index i)
  else if hc : l.size = capacity then .error (.invalidOperation .fullPrefixList)
  else
    have hl := l.length_toList_le
    have hs := l.size_eq
    .ok ⟨assemble (l.size + 1) (insertItems l.items i p), _,
      l.insert_isPacked p (by omega) (by omega)⟩

def push (l : PrefixList) (p : LegacyPrefix) : Except EncodingError PrefixList :=
  l.insert l.size p

/-- An empty list is the first fault, a place at or beyond the end the second. -/
def removeAt (l : PrefixList) (i : Nat) : Except EncodingError PrefixList :=
  if l.size = 0 then .error (.invalidOperation .emptyPrefixList)
  else if hi : i < l.size then
    .ok ⟨assemble (l.size - 1) (eraseItems l.items i), _, l.erase_isPacked hi⟩
  else .error (.argumentRange .index i)

def setAt (l : PrefixList) (i : Nat) (p : LegacyPrefix) : Except EncodingError PrefixList :=
  if hi : i < l.size then .ok ⟨assemble l.size (setItems l.items i p), _, l.set_isPacked p hi⟩
  else .error (.argumentRange .index i)

def get? (l : PrefixList) (i : Nat) : Option LegacyPrefix :=
  if i < l.size then some (.ofIndex (l.items / power i).toNat) else none

def indexOf? (l : PrefixList) (p : LegacyPrefix) : Option Nat := l.toList.idxOf? p

def contains (l : PrefixList) (p : LegacyPrefix) : Bool := (l.indexOf? p).isSome

theorem toList_insert {l m : PrefixList} {i : Nat} {p : LegacyPrefix}
    (h : l.insert i p = .ok m) : m.toList = l.toList.insertIdx i p := by
  unfold insert at h
  split at h
  · simp at h
  split at h
  · simp at h
  have hl := l.length_toList_le
  have hs := l.size_eq
  have := l.insert_isPacked (i := i) p (by omega) (by omega)
  cases h
  exact toList_of_pack this.1 this.2

theorem toList_removeAt {l m : PrefixList} {i : Nat} (h : l.removeAt i = .ok m) :
    m.toList = l.toList.eraseIdx i := by
  unfold removeAt at h
  split at h
  · simp at h
  split at h
  · rename_i hi
    have := l.erase_isPacked hi
    cases h
    exact toList_of_pack this.1 this.2
  · simp at h

theorem toList_setAt {l m : PrefixList} {i : Nat} {p : LegacyPrefix} (h : l.setAt i p = .ok m) :
    m.toList = l.toList.set i p := by
  unfold setAt at h
  split at h
  · rename_i hi
    have := l.set_isPacked p hi
    cases h
    exact toList_of_pack this.1 this.2
  · simp at h

theorem get?_eq (l : PrefixList) (i : Nat) : l.get? i = l.toList[i]? := by
  unfold get?
  split
  · rename_i hi
    have hc := l.length_toList_le
    obtain ⟨as, q, bs, hl, rfl, hv⟩ := l.split_toList_at hi
    rw [hl, List.length_append] at hc
    have hd := (div_mod_digits (by omega) hv).1
    have hq := q.index_lt
    have hm : (q.index + 11 * digits bs) % 11 = q.index := by omega
    rw [hl, hd, digits, ← LegacyPrefix.ofIndex_mod, hm, q.ofIndex_index]
    simp
  · grind

def remove (l : PrefixList) (p : LegacyPrefix) : PrefixList :=
  match l.indexOf? p with
  | none => l
  | some i =>
    match l.removeAt i with
    | .ok l' => l'
    | .error _ => l

def ofList (ps : List LegacyPrefix) : Except EncodingError PrefixList := ps.foldlM push empty

/-- The last prefix of a group is the one in effect. -/
def lastOfGroup? (l : PrefixList) (g : PrefixGroup) : Option LegacyPrefix :=
  l.toList.reverse.find? fun p => p.group == g

def hasGroup (l : PrefixList) (g : PrefixGroup) : Bool := (l.lastOfGroup? g).isSome

def segment? (l : PrefixList) : Option Segment :=
  (l.lastOfGroup? .segment).bind LegacyPrefix.segment?

/-- The last of `66`, `F2` and `F3`, whatever their groups. -/
def simd (l : PrefixList) : SimdPrefix :=
  (l.toList.reverse.findSome? LegacyPrefix.simd?).getD .np

def text (l : PrefixList) : Text := Text.bracketed (l.toList.map LegacyPrefix.text)

def debug (l : PrefixList) : Text := Text.bracketed (l.toList.map LegacyPrefix.name)

end PrefixList
end X86Encoding
