import X86Encoding.Proofs.Text.LetterCase
import X86Encoding.Proofs.Vex.Dotted
import Mathlib.Data.List.Nodup
import Mathlib.Data.List.Perm.Basic

/-!
Dotted notation as a set of fields. What is read depends on which fields there are and not on
their order, letter case or spelling, and a field that says nothing may be named or left out.
The invariant of the reader is `Adds`: each place holds the fields of its kind, and there is room
for one.
-/

set_option autoImplicit false

namespace X86Encoding

namespace VexField

inductive Place where
  | role | vectorSize | simd | map | w
  deriving DecidableEq, Repr

def place : VexField → Place
  | .role _ => .role
  | .vectorSize _ => .vectorSize
  | .simd _ => .simd
  | .map _ => .map
  | .w _ => .w

def Spells : List Text → List VexField → Prop :=
  List.Forall₂ fun part f => ofText? part = some f

theorem spells_iff_map {parts : List Text} {fields : List VexField} :
    Spells parts fields ↔ parts.map ofText? = fields.map some := by
  rw [← List.forall₂_eq_eq_eq, List.forall₂_map_left_iff, List.forall₂_map_right_iff, Spells]

theorem Spells.exists_part {parts : List Text} {fields : List VexField} (h : Spells parts fields)
    {f : VexField} (hf : f ∈ fields) : ∃ part ∈ parts, ofText? part = some f := by
  have hmem : some f ∈ parts.map ofText? := by
    rw [spells_iff_map.1 h]
    exact List.mem_map_of_mem hf
  exact List.mem_map.1 hmem

end VexField

namespace VexSlots

def field? (s : VexSlots) : VexField.Place → Option VexField
  | .role => s.role.map .role
  | .vectorSize => s.vectorSize.map .vectorSize
  | .simd => s.simd.map .simd
  | .map => s.map.map .map
  | .w => s.w.map .w

@[simp] theorem field?_empty (p : VexField.Place) : empty.field? p = none := by cases p <;> rfl

theorem ext_field? {s s' : VexSlots} (h : ∀ p, s.field? p = s'.field? p) : s = s' := by
  have hmap : ∀ {α : Type} (f : α → VexField), Function.Injective f → ∀ a b : Option α,
      a.map f = b.map f → a = b := fun f hf a b hab => Option.map_injective hf hab
  obtain ⟨role, size, simd, map, w⟩ := s
  obtain ⟨role', size', simd', map', w'⟩ := s'
  obtain rfl := hmap _ (fun _ _ => VexField.role.inj) role role' (h .role)
  obtain rfl := hmap _ (fun _ _ => VexField.vectorSize.inj) size size' (h .vectorSize)
  obtain rfl := hmap _ (fun _ _ => VexField.simd.inj) simd simd' (h .simd)
  obtain rfl := hmap _ (fun _ _ => VexField.map.inj) map map' (h .map)
  obtain rfl := hmap _ (fun _ _ => VexField.w.inj) w w' (h .w)
  rfl

/-- The second slots hold the fields of the first and the given ones, in order. -/
def Adds (s : VexSlots) (fields : List VexField) (s' : VexSlots) : Prop :=
  ∀ p, (s'.field? p).toList = (s.field? p).toList ++ fields.filter (·.place == p)

@[simp] theorem adds_nil_iff {s s' : VexSlots} : Adds s [] s' ↔ s' = s := by
  constructor
  · intro h
    refine ext_field? fun p => ?_
    have hp := h p
    rw [List.filter_nil, List.append_nil] at hp
    cases hs : s.field? p with
    | none => rwa [hs, Option.toList_none, Option.toList_eq_nil_iff] at hp
    | some f => rwa [hs, Option.toList_some, Option.toList_eq_singleton_iff] at hp
  · intro h p
    simp [h]

theorem Adds.of_cons {s mid s' : VexSlots} {f : VexField} {fields : List VexField}
    (hmid : Adds s [f] mid) : Adds mid fields s' ↔ Adds s (f :: fields) s' := by
  refine forall_congr' fun p => ?_
  rw [hmid p, List.append_assoc, ← List.filter_append, List.singleton_append]

theorem Adds.length_filter_le {s s' : VexSlots} {fields : List VexField} (h : Adds s fields s')
    (p : VexField.Place) :
    (s.field? p).toList.length + (fields.filter (·.place == p)).length ≤ 1 := by
  rw [← List.length_append, ← h p]
  cases s'.field? p <;> simp

theorem Adds.field?_eq_none {s s' : VexSlots} {fields : List VexField} (h : Adds s fields s')
    {f : VexField} (hf : f ∈ fields) : s.field? f.place = none := by
  have hlength := h.length_filter_le f.place
  have hpos : 0 < (fields.filter (·.place == f.place)).length :=
    List.length_pos_of_mem (List.mem_filter.2 ⟨hf, beq_self_eq_true _⟩)
  cases hs : s.field? f.place with
  | none => rfl
  | some g =>
    rw [hs, Option.toList_some, List.length_singleton] at hlength
    omega

theorem Adds.nodup {s s' : VexSlots} {fields : List VexField} (h : Adds s fields s') :
    (fields.map VexField.place).Nodup := by
  refine List.nodup_iff_count_le_one.2 fun p => ?_
  have hlength := h.length_filter_le p
  rw [List.count, List.countP_map, List.countP_eq_length_filter]
  exact Nat.le_trans (Nat.le_add_left _ _) hlength

theorem put?_eq_none_iff {s : VexSlots} {f : VexField} :
    s.put? f = none ↔ s.field? f.place ≠ none := by
  cases f <;> simp [put?, VexField.place, field?, Option.isSome_iff_ne_none]

theorem adds_of_put? {s s' : VexSlots} {f : VexField} (h : s.put? f = some s') :
    Adds s [f] s' := by
  cases f <;> simp only [put?] at h <;> split at h <;> cases h <;> intro p <;>
    cases p <;> simp_all [VexField.place, field?]

/-- The reader succeeds where every part spells a field and each field finds its place free. -/
theorem fill_eq_ok_iff {s s' : VexSlots} {parts : List Text} :
    s.fill parts = .ok s' ↔ ∃ fields, VexField.Spells parts fields ∧ Adds s fields s' := by
  induction parts generalizing s with
  | nil =>
    rw [fill]
    constructor
    · intro h
      exact ⟨[], .nil, adds_nil_iff.2 (Except.ok.inj h).symm⟩
    · intro ⟨fields, hfields, hadds⟩
      obtain rfl := List.forall₂_nil_left_iff.1 hfields
      rw [adds_nil_iff.1 hadds]
  | cons part rest ih =>
    rw [fill]
    cases hpart : VexField.ofText? part with
    | none =>
      refine iff_of_false nofun fun ⟨fields, hfields, _⟩ => ?_
      obtain ⟨f, _, hf, -, -⟩ := List.forall₂_cons_left_iff.1 hfields
      cases hpart.symm.trans hf
    | some f =>
      cases hput : s.put? f with
      | none =>
        refine iff_of_false (by simp [hput]) fun ⟨fields, hfields, hadds⟩ => ?_
        obtain ⟨g, fields, hg, -, rfl⟩ := List.forall₂_cons_left_iff.1 hfields
        obtain rfl := Option.some.inj (hpart.symm.trans hg)
        exact put?_eq_none_iff.1 hput (hadds.field?_eq_none List.mem_cons_self)
      | some mid =>
        have hmid := adds_of_put? hput
        simp only [hput, ih]
        constructor
        · intro ⟨fields, hfields, hadds⟩
          exact ⟨f :: fields, .cons hpart hfields, hmid.of_cons.1 hadds⟩
        · intro ⟨fields', hfields, hadds⟩
          obtain ⟨g, fields, hg, hrest, rfl⟩ := List.forall₂_cons_left_iff.1 hfields
          obtain rfl := Option.some.inj (hpart.symm.trans hg)
          exact ⟨fields, hrest, hmid.of_cons.2 hadds⟩

/-! ## Order -/

theorem Adds.perm {s s' : VexSlots} {fields fields' : List VexField} (h : Adds s fields s')
    (hperm : fields.Perm fields') : Adds s fields' s' := by
  intro p
  have hp := ((hperm.filter (·.place == p)).append_left (s.field? p).toList).symm
  rw [← h p] at hp
  cases hs : s'.field? p with
  | none => rw [hs, Option.toList_none] at hp; exact hp.eq_nil.symm
  | some f => rw [hs, Option.toList_some] at hp; exact (List.perm_singleton.1 hp).symm

theorem fill_perm {s s' : VexSlots} {parts parts' : List Text} (hperm : parts.Perm parts') :
    s.fill parts = .ok s' ↔ s.fill parts' = .ok s' := by
  have hone : ∀ {ps ps' : List Text}, ps.Perm ps' → s.fill ps = .ok s' → s.fill ps' = .ok s' := by
    intro ps ps' hps h
    obtain ⟨fields, hfields, hadds⟩ := fill_eq_ok_iff.1 h
    obtain ⟨fields', hfields', hperm'⟩ := List.perm_comp_forall₂ hps.symm hfields
    exact fill_eq_ok_iff.2 ⟨fields', hfields', hadds.perm hperm'.symm⟩
  exact ⟨hone hperm, hone hperm.symm⟩

theorem fill_concat {s s' : VexSlots} {parts : List Text} {name : Text} {f : VexField}
    (hf : VexField.ofText? name = some f) :
    s.fill (parts ++ [name]) = .ok s' ↔ ∃ mid, s.fill parts = .ok mid ∧ mid.put? f = some s' := by
  induction parts generalizing s with
  | nil =>
    cases hput : s.put? f <;> simp [fill, hf, hput]
  | cons part rest ih =>
    rw [List.cons_append, fill, fill]
    cases hpart : VexField.ofText? part with
    | none => simp
    | some g =>
      cases hput : s.put? g with
      | none => simp [hput]
      | some mid => simpa only [hput] using ih

/-- What the slots ask of a prefix. An empty place leaves it open, or means no SIMD prefix. -/
def fields? (kind : VexKind) (s : VexSlots) : Option VexFields :=
  s.map.map fun map => ⟨kind, s.role, s.vectorSize.join, s.simd.getD .np, map, s.w.join⟩

/-- The fields that ask what an empty place asks. -/
def silent : List VexField := [.vectorSize none, .simd .np, .w none]

theorem fields?_of_put? {s s' : VexSlots} {f : VexField} (hf : f ∈ silent)
    (h : s.put? f = some s') (kind : VexKind) : s'.fields? kind = s.fields? kind := by
  simp only [silent, List.mem_cons, List.not_mem_nil, or_false] at hf
  rcases hf with rfl | rfl | rfl <;> simp only [put?] at h <;> split at h <;> cases h <;>
    simp_all [fields?]

end VexSlots

namespace VexDescriptor

/-! ## What a text denotes -/

/-- Parts in lower case that are read as these fields. -/
def Denotes (parts : List Text) (f : VexFields) : Prop :=
  ∃ s, VexSlots.empty.fill parts = .ok s ∧ s.fields? f.kind = some f

theorem ofText_eq_ok_iff {t keyword : Text} {parts : List Text}
    (ht : t.splitOn '.' = keyword :: parts) {v : VexDescriptor} :
    ofText t = .ok v ↔ kindOfKeyword? (Text.lower keyword) = some v.fields.kind ∧
      Denotes (parts.map Text.lower) v.fields := by
  simp only [ofText, Text.splitOn_lower, ht, List.map_cons, Denotes]
  cases kindOfKeyword? (Text.lower keyword) with
  | none => simp
  | some kind =>
    cases VexSlots.empty.fill (parts.map Text.lower) with
    | error fault => simp
    | ok s =>
      cases hmap : s.map with
      | none => simp [VexSlots.fields?, hmap]
      | some map =>
        simp only [Checked.make_eq_ok_iff, Except.ok.injEq, exists_eq_left', Option.some.injEq,
          VexSlots.fields?, hmap, Option.map_some]
        constructor
        · intro h
          rw [← h]
          exact ⟨rfl, rfl⟩
        · intro h
          rw [h.1, h.2]

theorem exists_splitOn (t : Text) : ∃ keyword parts, t.splitOn '.' = keyword :: parts :=
  List.exists_cons_of_ne_nil (List.splitOn_ne_nil '.' t)

@[simp] theorem ofText_lower (t : Text) (v : VexDescriptor) :
    ofText (Text.lower t) = .ok v ↔ ofText t = .ok v := by
  obtain ⟨keyword, parts, ht⟩ := exists_splitOn t
  have hlower : (Text.lower t).splitOn '.' = Text.lower keyword :: parts.map Text.lower := by
    simp [ht]
  have hparts : (parts.map Text.lower).map Text.lower = parts.map Text.lower := by simp
  rw [ofText_eq_ok_iff hlower, ofText_eq_ok_iff ht, Text.lower_lower, hparts]

theorem denotes_perm {parts parts' : List Text} (h : parts.Perm parts') (f : VexFields) :
    Denotes parts f ↔ Denotes parts' f :=
  exists_congr fun _ => and_congr_left fun _ => VexSlots.fill_perm h

theorem denotes_congr {parts parts' : List Text}
    (h : parts.map VexField.ofText? = parts'.map VexField.ofText?) (f : VexFields) :
    Denotes parts f ↔ Denotes parts' f := by
  refine exists_congr fun s => and_congr_left fun _ => ?_
  simp only [VexSlots.fill_eq_ok_iff, VexField.spells_iff_map, h]

theorem denotes_concat {parts : List Text} {name : Text} {d : VexField}
    (hname : VexField.ofText? name = some d) (hsilent : d ∈ VexSlots.silent)
    (hfree : ∀ part ∈ parts, ∀ g, VexField.ofText? part = some g → g.place ≠ d.place)
    (f : VexFields) : Denotes (parts ++ [name]) f ↔ Denotes parts f := by
  constructor
  · intro ⟨s', hs', hfields⟩
    obtain ⟨s, hs, hput⟩ := (VexSlots.fill_concat hname).1 hs'
    exact ⟨s, hs, (VexSlots.fields?_of_put? hsilent hput f.kind).symm.trans hfields⟩
  · intro ⟨s, hs, hfields⟩
    obtain ⟨fields, hspells, hadds⟩ := VexSlots.fill_eq_ok_iff.1 hs
    have hplace : fields.filter (·.place == d.place) = [] := by
      refine List.filter_eq_nil_iff.2 fun g hg => ?_
      obtain ⟨part, hpart, hgpart⟩ := hspells.exists_part hg
      simpa using hfree part hpart g hgpart
    have hnone : s.field? d.place = none := by
      have hp := hadds d.place
      rwa [hplace, VexSlots.field?_empty, Option.toList_none, List.append_nil,
        Option.toList_eq_nil_iff] at hp
    cases hput : s.put? d with
    | none => exact absurd hnone (VexSlots.put?_eq_none_iff.1 hput)
    | some s' =>
      exact ⟨s', (VexSlots.fill_concat hname).2 ⟨s, hs, hput⟩,
        (VexSlots.fields?_of_put? hsilent hput f.kind).trans hfields⟩

/-! ## Respelling -/

def synonyms : List (List Text) :=
  [["128".toList, "l0".toList, "lz".toList], ["256".toList, "l1".toList],
    ["512".toList, "l2".toList], ["np".toList, "p0".toList], ["m8".toList, "map8".toList],
    ["m9".toList, "map9".toList], ["m10".toList, "map10".toList]]

def silentNames : List Text := ["lig".toList, "np".toList, "wig".toList]

def place? (part : Text) : Option VexField.Place :=
  (VexField.ofText? (Text.lower part)).map VexField.place

inductive Respelling : Text → Text → Prop where
  /-- Other letter case. -/
  | letters {t t' : Text} (h : Text.lower t = Text.lower t') : Respelling t t'
  /-- Another order of the fields behind the keyword. -/
  | order {t t' keyword : Text} {parts parts' : List Text} (ht : t.splitOn '.' = keyword :: parts)
      (ht' : t'.splitOn '.' = keyword :: parts') (h : parts.Perm parts') : Respelling t t'
  /-- Another name of a field. -/
  | synonym {t t' keyword name name' : Text} {front back names : List Text}
      (ht : t.splitOn '.' = keyword :: (front ++ name :: back))
      (ht' : t'.splitOn '.' = keyword :: (front ++ name' :: back))
      (hnames : names ∈ synonyms) (h : Text.lower name ∈ names) (h' : Text.lower name' ∈ names) :
      Respelling t t'
  /-- A name that says nothing, where no other field of its kind is. -/
  | silent {t t' keyword name : Text} {front back : List Text}
      (ht : t.splitOn '.' = keyword :: (front ++ back))
      (ht' : t'.splitOn '.' = keyword :: (front ++ name :: back))
      (h : Text.lower name ∈ silentNames)
      (hfree : ∀ part ∈ front ++ back, place? part ≠ place? name) : Respelling t t'

theorem ofText?_of_synonyms : ∀ names ∈ synonyms, ∀ name ∈ names, ∀ name' ∈ names,
    VexField.ofText? name = VexField.ofText? name' := by decide

theorem silent_of_silentNames : ∀ name ∈ silentNames,
    ∃ d ∈ VexSlots.silent, VexField.ofText? name = some d := by decide

theorem ofText_of_respelling {t t' : Text} (h : Respelling t t') (v : VexDescriptor) :
    ofText t = .ok v ↔ ofText t' = .ok v := by
  cases h with
  | letters h => rw [← ofText_lower t, h, ofText_lower t']
  | order ht ht' h =>
    rw [ofText_eq_ok_iff ht, ofText_eq_ok_iff ht']
    exact and_congr_right fun _ => denotes_perm (h.map _) _
  | synonym ht ht' hnames h h' =>
    rw [ofText_eq_ok_iff ht, ofText_eq_ok_iff ht']
    refine and_congr_right fun _ => denotes_congr ?_ _
    simp [ofText?_of_synonyms _ hnames _ h _ h']
  | @silent keyword name front back ht ht' h hfree =>
    rw [ofText_eq_ok_iff ht, ofText_eq_ok_iff ht']
    obtain ⟨d, hsilent, hd⟩ := silent_of_silentNames _ h
    have hfree' : ∀ part ∈ (front ++ back).map Text.lower, ∀ g,
        VexField.ofText? part = some g → g.place ≠ d.place := by
      intro part hpart g hg hplace
      obtain ⟨part, hmem, rfl⟩ := List.mem_map.1 hpart
      exact hfree part hmem (by simp [place?, hg, hd, hplace])
    have hperm : ((front ++ back).map Text.lower ++ [Text.lower name]).Perm
        ((front ++ name :: back).map Text.lower) := by
      rw [List.map_append, List.map_append, List.map_cons]
      exact (List.perm_append_singleton _ _).trans List.perm_middle.symm
    refine and_congr_right fun _ => ?_
    rw [← denotes_perm hperm, denotes_concat hd hsilent hfree']

/-- What is read of a dotted text does not depend on the order, letter case and spelling of its
fields, nor on whether a field that says nothing is named; every descriptor is read back from its
printed form; and a text that is read has at most one field of each kind and exactly one map. -/
theorem ofText_respelled :
    (∀ t t', Relation.EqvGen Respelling t t' → ∀ v, ofText t = .ok v ↔ ofText t' = .ok v) ∧
    (∀ v : VexDescriptor, ofText v.text = .ok v) ∧
    ∀ t v, ofText t = .ok v → ∃ keyword parts fields, t.splitOn '.' = keyword :: parts ∧
      VexField.Spells (parts.map Text.lower) fields ∧ (fields.map VexField.place).Nodup ∧
      fields.filter (·.place == .map) = [.map v.fields.map] := by
  refine ⟨fun t t' h v => ?_, ofText_text, fun t v h => ?_⟩
  · exact Text.iff_of_eqvGen (p := fun t => ofText t = .ok v)
      (fun _ _ hone => ofText_of_respelling hone v) h
  · obtain ⟨keyword, parts, ht⟩ := exists_splitOn t
    obtain ⟨-, s, hs, hfields⟩ := (ofText_eq_ok_iff ht).1 h
    obtain ⟨fields, hspells, hadds⟩ := VexSlots.fill_eq_ok_iff.1 hs
    obtain ⟨map, hmap, hv⟩ := Option.map_eq_some_iff.1 hfields
    refine ⟨keyword, parts, fields, ht, hspells, hadds.nodup, ?_⟩
    have hplace := hadds .map
    rw [VexSlots.field?_empty, Option.toList_none, List.nil_append, VexSlots.field?, hmap] at hplace
    rw [← hplace, ← hv]
    rfl

theorem ofText_respelled_reordered :
    Relation.EqvGen Respelling "VEX.0F.W0.np".toList "vex.w0.0f".toList ∧
    ∃ v, ofText "VEX.0F.W0.np".toList = .ok v ∧ v.text = "vex.lig.0f.w0".toList := by
  have hfull : "vex.0f.w0.np".toList.splitOn '.' =
      "vex".toList :: (["0f".toList, "w0".toList] ++ "np".toList :: []) := by decide
  have hshort : "vex.0f.w0".toList.splitOn '.' =
      "vex".toList :: (["0f".toList, "w0".toList] ++ []) := by decide
  have hswapped : "vex.w0.0f".toList.splitOn '.' =
      "vex".toList :: ["w0".toList, "0f".toList] := by decide
  have hletters : Respelling "VEX.0F.W0.np".toList "vex.0f.w0.np".toList := .letters (by decide)
  have hsilent : Respelling "vex.0f.w0".toList "vex.0f.w0.np".toList :=
    .silent hshort hfull (by decide) (by decide)
  have horder : Respelling "vex.0f.w0".toList "vex.w0.0f".toList :=
    .order hshort hswapped (.swap _ _ _)
  have hsame : Relation.EqvGen Respelling "VEX.0F.W0.np".toList "vex.w0.0f".toList :=
    .trans _ _ _ (.rel _ _ hletters) (.trans _ _ _ (.symm _ _ (.rel _ _ hsilent)) (.rel _ _ horder))
  have hread : ∃ v, ofText "vex.w0.0f".toList = .ok v ∧ v.text = "vex.lig.0f.w0".toList :=
    ⟨_, rfl, by decide⟩
  obtain ⟨v, hv, htext⟩ := hread
  exact ⟨hsame, v, (ofText_respelled.1 _ _ hsame v).2 hv, htext⟩

end VexDescriptor
end X86Encoding
