import X86Encoding.Prefix.LegacyList

set_option autoImplicit false

namespace X86Encoding.PrefixList

theorem exists_ok_of_map {x : Except EncodingError PrefixList} {ps : List LegacyPrefix}
    (h : x.map toList = .ok ps) : ∃ m, x = .ok m ∧ m.toList = ps := by
  cases x with
  | error e => cases h
  | ok m => exact ⟨m, rfl, Except.ok.inj h⟩

attribute [grind] Except.toBool

theorem exists_ok_iff_of_map {x : Except EncodingError PrefixList}
    {r : Except EncodingError (List LegacyPrefix)} (h : x.map toList = r) :
    (∃ m, x = .ok m) ↔ r.isOk = true := by
  subst h
  cases x with
  | error e => exact ⟨fun ⟨_, h⟩ => (nomatch h), fun h => (nomatch h)⟩
  | ok m => exact ⟨fun _ => rfl, fun _ => ⟨m, rfl⟩⟩

theorem error_of_map {x : Except EncodingError PrefixList} {e : EncodingError}
    (h : x.map toList = .error e) : x = .error e := by
  cases x with
  | error e' => exact congrArg Except.error (Except.error.inj h)
  | ok m => cases h

section Operations

variable (l : PrefixList) (i : Nat) (p : LegacyPrefix)

theorem map_insert :
    (l.insert i p).map toList =
      if l.toList.length < i then .error (.argumentRange .index i)
      else if l.toList.length = capacity then .error (.invalidOperation .fullPrefixList)
      else .ok (l.toList.insertIdx i p) := by
  rw [← l.size_eq]
  by_cases hi : l.size < i
  · rw [if_pos hi, insert, dif_pos hi]
    rfl
  · by_cases hc : l.size = capacity
    · rw [if_neg hi, if_pos hc, insert, dif_neg hi, dif_pos hc]
      rfl
    · have ho : ∃ m, l.insert i p = .ok m := by
        rw [insert, dif_neg hi, dif_neg hc]
        exact ⟨_, rfl⟩
      obtain ⟨m, hm⟩ := ho
      rw [if_neg hi, if_neg hc, hm, ← toList_insert hm]
      rfl

theorem map_push :
    (l.push p).map toList =
      if l.toList.length = capacity then .error (.invalidOperation .fullPrefixList)
      else .ok (l.toList ++ [p]) := by
  rw [push, map_insert, l.size_eq, if_neg (Nat.lt_irrefl _), List.insertIdx_length_self]

theorem map_setAt :
    (l.setAt i p).map toList =
      if i < l.toList.length then .ok (l.toList.set i p)
      else .error (.argumentRange .index i) := by
  rw [← l.size_eq]
  by_cases hi : i < l.size
  · have ho : ∃ m, l.setAt i p = .ok m := by
      rw [setAt, dif_pos hi]
      exact ⟨_, rfl⟩
    obtain ⟨m, hm⟩ := ho
    rw [if_pos hi, hm, ← toList_setAt hm]
    rfl
  · rw [if_neg hi, setAt, dif_neg hi]
    rfl

theorem map_removeAt :
    (l.removeAt i).map toList =
      if l.toList.length = 0 then .error (.invalidOperation .emptyPrefixList)
      else if i < l.toList.length then .ok (l.toList.eraseIdx i)
      else .error (.argumentRange .index i) := by
  rw [← l.size_eq]
  by_cases he : l.size = 0
  · rw [if_pos he, removeAt, if_pos he]
    rfl
  · by_cases hi : i < l.size
    · have ho : ∃ m, l.removeAt i = .ok m := by
        rw [removeAt, if_neg he, dif_pos hi]
        exact ⟨_, rfl⟩
      obtain ⟨m, hm⟩ := ho
      rw [if_neg he, if_pos hi, hm, ← toList_removeAt hm]
      rfl
    · rw [if_neg he, if_neg hi, removeAt, if_neg he, dif_neg hi]
      rfl

@[simp] theorem toList_remove : (l.remove p).toList = l.toList.erase p := by
  rw [List.erase_eq_eraseIdx]
  unfold remove indexOf?
  cases h : l.toList.idxOf? p with
  | none => rfl
  | some i =>
    obtain ⟨hi, -⟩ := List.idxOf?_eq_some_iff.1 h
    obtain ⟨m, hm, hl⟩ := exists_ok_of_map ((l.map_removeAt i).trans
      ((if_neg (by omega)).trans (if_pos hi)))
    simp only [hm, hl]

end Operations

theorem map_foldlM_push (l : PrefixList) (ps : List LegacyPrefix) :
    (ps.foldlM push l).map toList =
      if l.toList.length + ps.length ≤ capacity then .ok (l.toList ++ ps)
      else .error (.invalidOperation .fullPrefixList) := by
  induction ps generalizing l with
  | nil =>
    rw [List.length_nil, Nat.add_zero, if_pos l.length_toList_le, List.append_nil]
    rfl
  | cons p ps ih =>
    rw [List.foldlM_cons, List.length_cons]
    have hle := l.length_toList_le
    have hp := l.map_push p
    by_cases hc : l.toList.length = capacity
    · rw [if_pos hc] at hp
      rw [error_of_map hp, if_neg (by omega)]
      rfl
    · rw [if_neg hc] at hp
      obtain ⟨m, hm, hl⟩ := exists_ok_of_map hp
      rw [hm]
      refine (ih m).trans ?_
      rw [hl, List.append_assoc, List.length_append, List.length_singleton, Nat.add_assoc,
        Nat.add_comm 1]
      rfl

theorem map_ofList (ps : List LegacyPrefix) :
    (ofList ps).map toList =
      if ps.length ≤ capacity then .ok ps else .error (.invalidOperation .fullPrefixList) := by
  rw [ofList, map_foldlM_push, toList_empty, List.length_nil, Nat.zero_add, List.nil_append]

theorem ofList_of_le {ps : List LegacyPrefix} (h : ps.length ≤ capacity) :
    ∃ l, ofList ps = .ok l ∧ l.toList = ps :=
  exists_ok_of_map ((map_ofList ps).trans (if_pos h))

theorem ofList_of_lt {ps : List LegacyPrefix} (h : capacity < ps.length) :
    ofList ps = .error (.invalidOperation .fullPrefixList) :=
  error_of_map ((map_ofList ps).trans (if_neg (Nat.not_le.2 h)))

theorem toList_of_ofList {ps : List LegacyPrefix} {l : PrefixList} (h : ofList ps = .ok l) :
    l.toList = ps := by
  have hm := map_ofList ps
  rw [h] at hm
  split at hm
  · exact Except.ok.inj hm
  · cases hm

@[simp] theorem contains_eq_true_iff {l : PrefixList} {p : LegacyPrefix} :
    l.contains p = true ↔ p ∈ l.toList := by
  rw [contains, indexOf?, List.isSome_idxOf?]

theorem simd_ne_np_of_contains {l : PrefixList} (h : l.contains .operandSize = true) :
    l.simd ≠ .np := by
  have hsome : (l.toList.reverse.findSome? LegacyPrefix.simd?).isSome = true :=
    List.findSome?_isSome_iff.2
      ⟨.operandSize, List.mem_reverse.2 (contains_eq_true_iff.1 h), rfl⟩
  obtain ⟨p, hp⟩ := Option.isSome_iff_exists.1 hsome
  obtain ⟨q, -, hq⟩ := List.exists_of_findSome?_eq_some hp
  rw [simd, hp, Option.getD_some]
  rintro rfl
  cases q <;> cases hq

theorem contains_of_simd_eq_p66 {l : PrefixList} (h : l.simd = .p66) :
    l.contains .operandSize = true := by
  unfold simd at h
  cases hp : l.toList.reverse.findSome? LegacyPrefix.simd? with
  | none => rw [hp] at h; cases h
  | some p =>
    rw [hp, Option.getD_some] at h
    subst h
    obtain ⟨q, hmem, hq⟩ := List.exists_of_findSome?_eq_some hp
    obtain rfl : q = .operandSize := by cases q <;> first | rfl | cases hq
    exact contains_eq_true_iff.2 (List.mem_reverse.1 hmem)

/-- The sizes and the SIMD prefix are selected apart from each other, save for what 66 does
to both. -/
theorem exists_selecting {has66 : Bool} {p : SimdPrefix} (has67 : Bool)
    (h66 : p = .p66 → has66 = true) (hnp : p = .np → has66 = false) :
    ∃ l : PrefixList, l.contains .operandSize = has66 ∧ l.contains .addressSize = has67 ∧
      l.simd = p := by
  have hlist : ∃ ps : List LegacyPrefix, ps.length ≤ capacity ∧
      (ps.idxOf? .operandSize).isSome = has66 ∧ (ps.idxOf? .addressSize).isSome = has67 ∧
      (ps.reverse.findSome? LegacyPrefix.simd?).getD .np = p := by
    refine ⟨(if has67 then [.addressSize] else []) ++ (if has66 then [.operandSize] else []) ++
      LegacyPrefix.all.filter fun q => q != .operandSize && q.simd? == some p, ?_⟩
    cases p <;> cases has66 <;> cases has67 <;> first | decide | cases h66 rfl | cases hnp rfl
  obtain ⟨ps, hle, hlist⟩ := hlist
  obtain ⟨l, -, rfl⟩ := ofList_of_le hle
  exact ⟨l, hlist⟩

theorem exists_addressSize (has67 : Bool) :
    ∃ l : PrefixList, (∀ p ∈ l.toList, p = .addressSize) ∧ l.contains .addressSize = has67 := by
  have hle : (List.replicate has67.toNat LegacyPrefix.addressSize).length ≤ capacity := by
    cases has67 <;> decide
  obtain ⟨l, -, hl⟩ := ofList_of_le hle
  refine ⟨l, fun p hp => List.eq_of_mem_replicate (hl ▸ hp), ?_⟩
  rw [contains, indexOf?, hl]
  cases has67 <;> decide

end X86Encoding.PrefixList
