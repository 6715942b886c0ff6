import Mathlib.Algebra.BigOperators.Fin
import Mathlib.Tactic.Ring
import X86Encoding.Proofs.Prefix.LegacyList

/-!
Runs of operations on a packed list. Each operation does to the word what it does to a plain
list, faults included, so a run of them does too. At the end of a run the word is the sum of
its digits, and no product or sum on the way to the next word wraps around.
-/

set_option autoImplicit false

namespace X86Encoding

inductive PrefixEdit where
  | insert (i : Nat) (p : LegacyPrefix)
  | push (p : LegacyPrefix)
  | setAt (i : Nat) (p : LegacyPrefix)
  | removeAt (i : Nat)
  | remove (p : LegacyPrefix)
  | ofList (ps : List LegacyPrefix)
  deriving DecidableEq, Repr

namespace PrefixEdit

def apply (l : PrefixList) : PrefixEdit → Except EncodingError PrefixList
  | .insert i p => l.insert i p
  | .push p => l.push p
  | .setAt i p => l.setAt i p
  | .removeAt i => l.removeAt i
  | .remove p => .ok (l.remove p)
  | .ofList ps => PrefixList.ofList ps

/-- The same operation on a plain list that is to have no more than seven elements. -/
def applyPlain (ps : List LegacyPrefix) : PrefixEdit → Except EncodingError (List LegacyPrefix)
  | .insert i p =>
    if ps.length < i then .error (.argumentRange .index i)
    else if ps.length = 7 then .error (.invalidOperation .fullPrefixList)
    else .ok (ps.insertIdx i p)
  | .push p =>
    if ps.length = 7 then .error (.invalidOperation .fullPrefixList) else .ok (ps ++ [p])
  | .setAt i p => if i < ps.length then .ok (ps.set i p) else .error (.argumentRange .index i)
  | .removeAt i =>
    if ps.length = 0 then .error (.invalidOperation .emptyPrefixList)
    else if i < ps.length then .ok (ps.eraseIdx i)
    else .error (.argumentRange .index i)
  | .remove p => .ok (ps.erase p)
  | .ofList qs =>
    if qs.length ≤ 7 then .ok qs else .error (.invalidOperation .fullPrefixList)

end PrefixEdit

namespace PrefixList

def edited (edits : List PrefixEdit) : Except EncodingError PrefixList :=
  edits.foldlM PrefixEdit.apply empty

def editedPlain (edits : List PrefixEdit) : Except EncodingError (List LegacyPrefix) :=
  edits.foldlM PrefixEdit.applyPlain []

theorem toList_apply (l : PrefixList) (e : PrefixEdit) :
    (e.apply l).map toList = e.applyPlain l.toList := by
  cases e with
  | insert i p => exact l.map_insert i p
  | push p => exact l.map_push p
  | setAt i p => exact l.map_setAt i p
  | removeAt i => exact l.map_removeAt i
  | remove p => exact congrArg Except.ok (l.toList_remove p)
  | ofList ps => exact map_ofList ps

theorem toList_foldlM_apply (edits : List PrefixEdit) (l : PrefixList) :
    (edits.foldlM PrefixEdit.apply l).map toList =
      edits.foldlM PrefixEdit.applyPlain l.toList := by
  induction edits generalizing l with
  | nil => rfl
  | cons e edits ih =>
    rw [List.foldlM_cons, List.foldlM_cons, ← toList_apply]
    cases e.apply l with
    | error err => rfl
    | ok m => exact ih m

theorem toList_edited (edits : List PrefixEdit) :
    (edited edits).map toList = editedPlain edits := by
  rw [edited, toList_foldlM_apply, toList_empty, editedPlain]

theorem digits_eq_sum (ps : List LegacyPrefix) :
    digits ps = ∑ i : Fin ps.length, ps[i].index * 11 ^ (i : Nat) := by
  induction ps with
  | nil => rfl
  | cons p ps ih =>
    have hshift : ∀ i : Fin ps.length,
        11 * (ps[i].index * 11 ^ (i : Nat)) = ps[i].index * 11 ^ (i.succ : Nat) := by
      intro i
      rw [Fin.val_succ, pow_succ']
      ring
    calc digits (p :: ps)
        = p.index * 11 ^ 0 + 11 * ∑ i : Fin ps.length, ps[i].index * 11 ^ (i : Nat) := by
          rw [digits, ih, pow_zero, mul_one]
      _ = p.index * 11 ^ 0 + ∑ i : Fin ps.length, ps[i].index * 11 ^ (i.succ : Nat) := by
          rw [Finset.mul_sum, Finset.sum_congr rfl fun i _ => hshift i]
      _ = ∑ i : Fin (ps.length + 1), (p :: ps)[i].index * 11 ^ (i : Nat) :=
          (Fin.sum_univ_succ fun i : Fin (ps.length + 1) =>
            (p :: ps)[i].index * 11 ^ (i : Nat)).symm

theorem word_eq_iff (l m : PrefixList) : l.word = m.word ↔ l.toList = m.toList := by
  constructor
  · intro h
    have hm := m.word_eq_pack
    rw [← h] at hm
    exact toList_of_pack m.length_toList_le hm
  · intro h
    rw [ext_toList h]

theorem insert_fits (l : PrefixList) {i : Nat} (p : LegacyPrefix) (hi : i ≤ l.size)
    (hc : l.size < 7) :
    PlaceFits (l.items / power i) l.items i p ∧
      AssembleFits (l.size + 1) (insertItems l.items i p) := by
  obtain ⟨as, bs, hl, rfl, hv⟩ := l.split_toList hi
  obtain ⟨hf, hd⟩ := insertItems_eq_digits p (by grind) hv
  have hn : (as ++ p :: bs).length = l.size + 1 := by grind
  exact ⟨hf, hn ▸ assembleFits (by grind) hd⟩

theorem setAt_fits (l : PrefixList) {i : Nat} (p : LegacyPrefix) (hi : i < l.size) :
    PlaceFits (l.items / (power i * 11)) l.items i p ∧
      AssembleFits l.size (setItems l.items i p) := by
  have hc := l.length_toList_le
  obtain ⟨as, q, bs, hl, rfl, hv⟩ := l.split_toList_at hi
  obtain ⟨hf, hd⟩ := setItems_eq_digits p (hl ▸ hc) hv
  have hn : (as ++ p :: bs).length = l.size := by grind
  exact ⟨hf, hn ▸ assembleFits (by grind) hd⟩

theorem removeAt_fits (l : PrefixList) {i : Nat} (hi : i < l.size) :
    EraseFits l.items i ∧ AssembleFits (l.size - 1) (eraseItems l.items i) := by
  have hc := l.length_toList_le
  obtain ⟨as, q, bs, hl, rfl, hv⟩ := l.split_toList_at hi
  obtain ⟨hf, hd⟩ := eraseItems_eq_digits (hl ▸ hc) hv
  have hn : (as ++ bs).length = l.size - 1 := by grind
  exact ⟨hf, hn ▸ assembleFits (by grind) hd⟩

def IsLast (P : LegacyPrefix → Prop) (ps : List LegacyPrefix) (p : LegacyPrefix) : Prop :=
  ∃ as bs, ps = as ++ p :: bs ∧ P p ∧ ∀ q ∈ bs, ¬ P q

theorem indexOf?_eq_some_iff (l : PrefixList) (p : LegacyPrefix) (i : Nat) :
    l.indexOf? p = some i ↔ l.toList[i]? = some p ∧ ∀ j < i, l.toList[j]? ≠ some p := by
  rw [indexOf?, List.idxOf?_eq_some_iff]
  constructor
  · rintro ⟨h, hp, hj⟩
    refine ⟨by rw [List.getElem?_eq_getElem h, hp], fun j hji => ?_⟩
    rw [List.getElem?_eq_getElem (by omega)]
    simpa using hj j hji
  · rintro ⟨h, hj⟩
    obtain ⟨hi, hp⟩ := List.getElem?_eq_some_iff.1 h
    refine ⟨hi, hp, fun j hji hq => hj j hji ?_⟩
    rw [List.getElem?_eq_getElem (by omega), hq]

theorem lastOfGroup?_eq_some_iff (l : PrefixList) (g : PrefixGroup) (p : LegacyPrefix) :
    l.lastOfGroup? g = some p ↔ IsLast (·.group = g) l.toList p := by
  rw [lastOfGroup?, List.find?_eq_some_iff_append]
  constructor
  · rintro ⟨hp, as, bs, hl, ha⟩
    refine ⟨bs.reverse, as.reverse, ?_, by simpa using hp, by simpa using ha⟩
    rw [List.reverse_eq_iff] at hl
    simpa using hl
  · rintro ⟨as, bs, hl, hp, hb⟩
    exact ⟨by simpa using hp, bs.reverse, as.reverse, by simp [hl], by simpa using hb⟩

theorem simd?_eq_some_iff (p : LegacyPrefix) (s : SimdPrefix) :
    p.simd? = some s ↔ s.byte? = some p.byte := by
  cases p <;> cases s <;> decide

theorem simd?_eq_none_iff (p : LegacyPrefix) :
    p.simd? = none ↔ p ∉ [.operandSize, .repne, .rep] := by
  cases p <;> decide

theorem simd_eq_iff (l : PrefixList) {s : SimdPrefix} (hs : s ≠ .np) :
    l.simd = s ↔
      ∃ p, s.byte? = some p.byte ∧ IsLast (· ∈ [.operandSize, .repne, .rep]) l.toList p := by
  have hget : l.simd = s ↔ l.toList.reverse.findSome? LegacyPrefix.simd? = some s := by
    unfold simd
    cases l.toList.reverse.findSome? LegacyPrefix.simd? with
    | none => simp [hs.symm]
    | some s' => simp
  -- the first from the end is the last one
  rw [hget, List.findSome?_eq_some_iff]
  constructor
  · rintro ⟨as, p, bs, hl, hp, ha⟩
    rw [List.reverse_eq_iff] at hl
    refine ⟨p, (simd?_eq_some_iff p s).1 hp, bs.reverse, as.reverse, by simpa using hl, ?_, ?_⟩
    · by_contra hn
      rw [(simd?_eq_none_iff p).2 hn] at hp
      cases hp
    · intro q hq
      exact (simd?_eq_none_iff q).1 (ha q (List.mem_reverse.1 hq))
  · rintro ⟨p, hp, as, bs, hl, -, hb⟩
    refine ⟨bs.reverse, p, as.reverse, by simp [hl], (simd?_eq_some_iff p s).2 hp, ?_⟩
    intro q hq
    exact (simd?_eq_none_iff q).2 (hb q (List.mem_reverse.1 hq))

/-- The word is the number of prefixes, from bit 29 on, and their digits in base 11. No step
towards the next word wraps around. -/
structure WordExact (l : PrefixList) : Prop where
  size_eq : l.size = l.toList.length
  size_le : l.size ≤ 7
  word_eq : l.word.toNat =
    l.size * 2 ^ 29 + ∑ i : Fin l.toList.length, l.toList[i].index * 11 ^ (i : Nat)
  insert_fits : ∀ i p, i ≤ l.size → l.size < 7 →
    PlaceFits (l.items / power i) l.items i p ∧
      AssembleFits (l.size + 1) (insertItems l.items i p)
  setAt_fits : ∀ i p, i < l.size →
    PlaceFits (l.items / (power i * 11)) l.items i p ∧
      AssembleFits l.size (setItems l.items i p)
  removeAt_fits : ∀ i, i < l.size →
    EraseFits l.items i ∧ AssembleFits (l.size - 1) (eraseItems l.items i)

structure QueriesExact (l : PrefixList) : Prop where
  get? : ∀ i, l.get? i = l.toList[i]?
  indexOf? : ∀ p i, l.indexOf? p = some i ↔
    l.toList[i]? = some p ∧ ∀ j < i, l.toList[j]? ≠ some p
  lastOfGroup? : ∀ g p, l.lastOfGroup? g = some p ↔ IsLast (·.group = g) l.toList p
  simd : ∀ s, s ≠ .np → (l.simd = s ↔
    ∃ p, s.byte? = some p.byte ∧ IsLast (· ∈ [.operandSize, .repne, .rep]) l.toList p)

structure EditsExact (l : PrefixList) : Prop where
  insert_iff : ∀ i p, (∃ m, l.insert i p = .ok m) ↔ i ≤ l.size ∧ l.size < 7
  toList_insert : ∀ i p m, l.insert i p = .ok m → m.toList = l.toList.insertIdx i p
  insert_beyond : ∀ i p, l.size < i → l.insert i p = .error (.argumentRange .index i)
  insert_full : ∀ i p, i ≤ l.size → l.size = 7 →
    l.insert i p = .error (.invalidOperation .fullPrefixList)
  removeAt_iff : ∀ i, (∃ m, l.removeAt i = .ok m) ↔ i < l.size
  toList_removeAt : ∀ i m, l.removeAt i = .ok m → m.toList = l.toList.eraseIdx i
  setAt_iff : ∀ i p, (∃ m, l.setAt i p = .ok m) ↔ i < l.size
  toList_setAt : ∀ i p m, l.setAt i p = .ok m → m.toList = l.toList.set i p
  toList_remove : ∀ p, (l.remove p).toList = l.toList.erase p

theorem wordExact (l : PrefixList) : l.WordExact where
  size_eq := l.size_eq
  size_le := l.size_eq ▸ l.length_toList_le
  word_eq := by rw [l.word_eq_pack, pack, l.size_eq, digits_eq_sum]
  insert_fits _ p := l.insert_fits p
  setAt_fits _ p := l.setAt_fits p
  removeAt_fits _ := l.removeAt_fits

theorem queriesExact (l : PrefixList) : l.QueriesExact where
  get? := l.get?_eq
  indexOf? := l.indexOf?_eq_some_iff
  lastOfGroup? := l.lastOfGroup?_eq_some_iff
  simd _ := l.simd_eq_iff

theorem editsExact (l : PrefixList) : l.EditsExact where
  insert_iff i p := by
    have hc : l.size ≤ 7 := l.size_eq ▸ l.length_toList_le
    rw [exists_ok_iff_of_map (l.map_insert i p)]
    grind
  toList_insert _ _ _ := toList_insert
  insert_beyond i p hi :=
    error_of_map ((l.map_insert i p).trans (if_pos (l.size_eq ▸ hi)))
  insert_full i p hi hf :=
    error_of_map ((l.map_insert i p).trans ((if_neg (l.size_eq ▸ Nat.not_lt.2 hi)).trans
      (if_pos (l.size_eq ▸ hf))))
  removeAt_iff i := by
    rw [exists_ok_iff_of_map (l.map_removeAt i)]
    grind
  toList_removeAt _ _ := toList_removeAt
  setAt_iff i p := by
    rw [exists_ok_iff_of_map (l.map_setAt i p)]
    grind
  toList_setAt _ _ _ := toList_setAt
  toList_remove := l.toList_remove

/-- A run of operations refines the same run on plain lists: it ends in the packed form of what
the plain run ends in, and that form can be told from the plain list alone. -/
theorem edited_refines {edits : List PrefixEdit} {l : PrefixList} (h : edited edits = .ok l) :
    editedPlain edits = .ok l.toList ∧ l.WordExact ∧ l.QueriesExact ∧ l.EditsExact ∧
      ∀ edits' m, edited edits' = .ok m → (l.word = m.word ↔ l.toList = m.toList) := by
  refine ⟨?_, l.wordExact, l.queriesExact, l.editsExact, fun _ m _ => l.word_eq_iff m⟩
  rw [← toList_edited, h]
  rfl

def fillingEdits : List PrefixEdit :=
  [.push .lock, .ofList [.cs, .rep, .gs, .rep], .insert 1 .addressSize, .setAt 0 .fs,
    .remove .rep, .removeAt 1, .push .operandSize, .push .es, .push .addressSize, .push .ss]

theorem edited_refines_filled :
    ∃ l, edited fillingEdits = .ok l ∧
      l.toList = [.fs, .gs, .rep, .operandSize, .es, .addressSize, .ss] ∧
      l.word.toNat = 7 * 2 ^ 29 + 8796916 ∧ l.simd = .p66 ∧
      l.insert 7 .lock = .error (.invalidOperation .fullPrefixList) := by
  obtain ⟨l, hl⟩ : ∃ l, edited fillingEdits = .ok l := ⟨_, rfl⟩
  obtain ⟨hp, hw, hq, he, -⟩ := edited_refines hl
  have hlist : l.toList = [.fs, .gs, .rep, .operandSize, .es, .addressSize, .ss] :=
    (Except.ok.inj hp).symm
  have hs : l.size = 7 := by rw [hw.size_eq, hlist]; rfl
  have hword := hw.word_eq
  rw [hs, ← digits_eq_sum, hlist] at hword
  exact ⟨l, hl, hlist, hword.trans (by decide),
    (hq.simd .p66 (by decide)).2 ⟨.operandSize, rfl, [.fs, .gs, .rep],
      [.es, .addressSize, .ss], hlist, by decide, by decide⟩,
    he.insert_full 7 .lock (by omega) hs⟩

end PrefixList
end X86Encoding
