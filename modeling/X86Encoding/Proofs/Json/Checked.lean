import X86Encoding.Proofs.Consistency
import X86Encoding.Proofs.Json.Table
import X86Encoding.Proofs.Table.Bounds

/-!
What is read from JSON has been checked. The parts of a value that have to be consistent are
opcode descriptors, descriptors of vector prefixes and lists of legacy prefixes; wherever one
stands in what is read, it has come through its check from a part of the JSON value. What is
read can be written, and is read again as it was.
-/

set_option autoImplicit false

namespace X86Encoding

open JsonForm

/-- `x` is a value or stands inside it. -/
inductive Json.Within (x : Json) : Json → Prop where
  | refl : Json.Within x x
  | item {y : Json} {items : List Json} : y ∈ items → Json.Within x y →
      Json.Within x (.arr items)
  | member {key : Text} {y : Json} {members : List (Text × Json)} : (key, y) ∈ members →
      Json.Within x y → Json.Within x (.obj members)

theorem Json.Within.trans {x y z : Json} (hxy : x.Within y) (hyz : y.Within z) : x.Within z := by
  induction hyz with
  | refl => exact hxy
  | item hmem _ ih => exact .item hmem ih
  | member hmem _ ih => exact .member hmem ih

theorem JsonForm.within_of_members? {names : List Text} {j : Json} {members : List (Option Json)}
    (h : members? names j = some members) {x : Json} (hx : some x ∈ members) : x.Within j := by
  unfold members? at h
  split at h
  · cases h
    obtain ⟨n, -, hn⟩ := List.mem_map.1 hx
    obtain ⟨⟨key, y⟩, hfind, rfl⟩ := Option.map_eq_some_iff.1 hn
    exact .member (List.mem_of_find?_eq_some hfind) .refl
  · split at h
    · cases h
      obtain ⟨y, hy, hyx⟩ := List.mem_map.1 hx
      cases hyx
      exact .item hy .refl
    · cases h
  · cases h

theorem JsonForm.mem_of_readItems? {α : Type} [JsonForm α] {items : List Json} {as : List α}
    (h : readItems? items = some as) {a : α} (ha : a ∈ as) : ∃ x ∈ items, read? x = some a := by
  induction items generalizing as with
  | nil =>
    cases h
    cases ha
  | cons x rest ih =>
    rw [readItems?] at h
    split at h
    · rename_i a' as' hx hrest
      cases h
      rcases List.mem_cons.1 ha with rfl | ha
      · exact ⟨x, List.mem_cons_self, hx⟩
      · obtain ⟨y, hy, hread⟩ := ih hrest ha
        exact ⟨y, List.mem_cons_of_mem _ hy, hread⟩
    · cases h

inductive CheckedPart where
  | opcode (d : OpcodeDescriptor)
  | vex (v : VexDescriptor)
  | prefixes (l : PrefixList)

namespace CheckedPart

def IsValid : CheckedPart → Prop
  | opcode d => (∀ rule ∈ d.fields.rules, rule.1 = true) ∧ OpcodeDescriptor.make d.fields = .ok d
  | vex v => VexDescriptor.make v.fields = .ok v
  | prefixes l => l.toList.length ≤ 7 ∧ l.word.toNat = PrefixList.pack l.toList ∧
      PrefixList.ofList l.toList = .ok l

/-- The JSON value gives what the part is made from, and the part is what its check makes of
that. -/
def ReadFrom (x : Json) : CheckedPart → Prop
  | opcode d => ∃ f : OpcodeFields, read? x = some f ∧ OpcodeDescriptor.make f = .ok d
  | vex v => ∃ n, readNat? (2 ^ 16) x = some n ∧ VexDescriptor.ofBits n = .ok v
  | prefixes l => ∃ ps : List LegacyPrefix, read? x = some ps ∧ PrefixList.ofList ps = .ok l

theorem isValid (p : CheckedPart) : p.IsValid := by
  cases p with
  | opcode d => exact ⟨firstFault?_eq_none_iff.1 d.consistent, d.make_fields⟩
  | vex v => exact v.make_fields
  | prefixes l => exact ⟨l.length_toList_le, l.word_eq_pack, l.ofList_toList⟩

end CheckedPart

def Code.checkedParts (c : Code) : List CheckedPart := c.vex.elim [] fun v => [.vex v]

def Row.checkedParts (r : Row) : List CheckedPart := r.code.elim [] Code.checkedParts

def TableEntry.checkedParts (e : TableEntry) : List CheckedPart := [.opcode e.opcode]

def OpcodeTable.checkedParts (t : OpcodeTable) : List CheckedPart :=
  t.entries.flatMap TableEntry.checkedParts

def PrefixState.checkedParts (s : PrefixState) : List CheckedPart := [.prefixes s.legacy]

def Instruction.checkedParts (d : Instruction) : List CheckedPart :=
  .opcode d.opcode :: d.prefixes.checkedParts

def AllRead (parts : List CheckedPart) (j : Json) : Prop :=
  ∀ p ∈ parts, ∃ x, Json.Within x j ∧ p.ReadFrom x

theorem AllRead.mono {parts : List CheckedPart} {x j : Json} (h : AllRead parts x)
    (hx : x.Within j) : AllRead parts j := by
  intro p hp
  obtain ⟨y, hy, hread⟩ := h p hp
  exact ⟨y, hy.trans hx, hread⟩

/-- The parts of a value are read from parts of the JSON; a value that is missing has none. -/
structure ReadsParts {α : Type} [JsonForm α] (parts : α → List CheckedPart) : Prop where
  value {j : Json} {a : α} : read? j = some a → AllRead (parts a) j
  missing {a : α} : absent? = some a → parts a = []

def FieldRead {α : Type} [JsonForm α] (j : Json) (a : α) : Prop :=
  ∃ names members, members? names j = some members ∧ ∃ m ∈ members, readMember? m = some a

namespace ReadsParts

variable {α : Type} [JsonForm α] {parts : α → List CheckedPart}

theorem single {part : α → CheckedPart}
    (h : ∀ {j : Json} {a : α}, read? j = some a → (part a).ReadFrom j)
    (habsent : (absent? : Option α) = none) : ReadsParts fun a : α => [part a] where
  value := by
    intro j a ha p hp
    rw [List.mem_singleton.1 hp]
    exact ⟨j, .refl, h ha⟩
  missing := by
    intro a ha
    rw [habsent] at ha
    cases ha

theorem option (h : ReadsParts parts) : ReadsParts fun o : Option α => o.elim [] parts where
  value {j o} ho := by
    cases o with
    | none => exact List.forall_mem_nil _
    | some a =>
      cases j with
      | null => cases ho
      | _ =>
        obtain ⟨a', ha, haa⟩ := Option.map_eq_some_iff.1 ho
        cases haa
        exact h.value ha
  missing ho := by
    cases ho
    rfl

theorem list (h : ReadsParts parts) : ReadsParts fun as : List α => as.flatMap parts where
  value {j as} has := by
    cases j with
    | arr items =>
      intro p hp
      obtain ⟨a, ha, hpa⟩ := List.mem_flatMap.1 hp
      obtain ⟨x, hx, hread⟩ := mem_of_readItems? has ha
      exact (h.value hread).mono (.item hx .refl) p hpa
    | _ => cases has
  missing has := by cases has

theorem field (h : ReadsParts parts) {j : Json} {a : α} (ha : FieldRead j a) :
    AllRead (parts a) j := by
  obtain ⟨names, members, hmembers, m, hm, hread⟩ := ha
  cases m with
  | none =>
    rw [h.missing hread]
    exact List.forall_mem_nil _
  | some x => exact (h.value hread).mono (within_of_members? hmembers hm)

end ReadsParts

theorem readsParts_opcode : ReadsParts fun d : OpcodeDescriptor => [.opcode d] :=
  .single checked_eq_some_iff.1 rfl

theorem readsParts_vex : ReadsParts fun v : VexDescriptor => [.vex v] :=
  .single checked_eq_some_iff.1 rfl

theorem readsParts_prefixes : ReadsParts fun l : PrefixList => [.prefixes l] :=
  .single checked_eq_some_iff.1 rfl

section Fields

variable {j : Json}

theorem PrefixState.fieldRead_legacy {s : PrefixState} (h : read? j = some s) :
    FieldRead j s.legacy := by
  simp only [read?, Option.bind_eq_bind, Option.bind_eq_some_iff] at h
  obtain ⟨members, hmembers, h⟩ := h
  split at h
  · simp only [Option.bind_eq_some_iff] at h
    obtain ⟨_, _, _, hlegacy, _, _, _, _, h⟩ := h
    cases h
    exact ⟨_, _, hmembers, _, by simp, hlegacy⟩
  · cases h

theorem Code.fieldRead_vex {c : Code} (h : read? j = some c) : FieldRead j c.vex := by
  simp only [read?, Option.bind_eq_bind, Option.bind_eq_some_iff] at h
  obtain ⟨members, hmembers, h⟩ := h
  split at h
  · simp only [Option.bind_eq_some_iff] at h
    obtain ⟨_, _, _, hvex, h⟩ := h
    cases h
    exact ⟨_, _, hmembers, _, by simp, hvex⟩
  · cases h

theorem Row.fieldRead_code {r : Row} (h : read? j = some r) : FieldRead j r.code := by
  simp only [read?, Option.bind_eq_bind, Option.bind_eq_some_iff] at h
  obtain ⟨members, hmembers, h⟩ := h
  split at h
  · simp only [Option.bind_eq_some_iff] at h
    obtain ⟨_, _, _, _, _, hcode, _, _, _, _, h⟩ := h
    cases h
    exact ⟨_, _, hmembers, _, by simp, hcode⟩
  · cases h

theorem TableEntry.fieldRead_opcode {e : TableEntry} (h : read? j = some e) :
    FieldRead j e.opcode := by
  simp only [read?, Option.bind_eq_bind, Option.bind_eq_some_iff] at h
  obtain ⟨members, hmembers, h⟩ := h
  split at h
  · simp only [Option.bind_eq_some_iff] at h
    obtain ⟨_, _, _, hopcode, h⟩ := h
    cases h
    exact ⟨_, _, hmembers, _, by simp, hopcode⟩
  · cases h

theorem OpcodeTable.fieldRead_entries {t : OpcodeTable} (h : read? j = some t) :
    FieldRead j t.entries := by
  simp only [read?, Option.bind_eq_bind, Option.bind_eq_some_iff] at h
  obtain ⟨members, hmembers, h⟩ := h
  split at h
  · simp only [Option.bind_eq_some_iff] at h
    obtain ⟨_, hentries, h⟩ := h
    cases h
    exact ⟨_, _, hmembers, _, by simp, hentries⟩
  · cases h

theorem Instruction.fieldRead {d : Instruction} (h : read? j = some d) :
    FieldRead j d.opcode ∧ FieldRead j d.prefixes ∧ FieldRead j d.length := by
  simp only [read?, Option.bind_eq_bind, Option.bind_eq_some_iff] at h
  obtain ⟨members, hmembers, h⟩ := h
  split at h
  · simp only [Option.bind_eq_some_iff] at h
    obtain ⟨_, _, _, hopcode, _, hprefixes, _, _, _, _, _, _, _, hlength, h⟩ := h
    cases h
    exact ⟨⟨_, _, hmembers, _, by simp, hopcode⟩, ⟨_, _, hmembers, _, by simp, hprefixes⟩,
      ⟨_, _, hmembers, _, by simp, hlength⟩⟩
  · cases h

end Fields

theorem PrefixState.readsParts : ReadsParts checkedParts where
  value h := readsParts_prefixes.field (fieldRead_legacy h)
  missing := nofun

theorem Code.readsParts : ReadsParts checkedParts where
  value h := readsParts_vex.option.field (fieldRead_vex h)
  missing := nofun

theorem Row.readsParts : ReadsParts checkedParts where
  value h := Code.readsParts.option.field (fieldRead_code h)
  missing := nofun

theorem TableEntry.readsParts : ReadsParts checkedParts where
  value h := readsParts_opcode.field (fieldRead_opcode h)
  missing := nofun

theorem OpcodeTable.readsParts : ReadsParts checkedParts where
  value h := TableEntry.readsParts.list.field (fieldRead_entries h)
  missing := nofun

theorem Instruction.readsParts : ReadsParts checkedParts where
  value h := by
    obtain ⟨hopcode, hprefixes, -⟩ := fieldRead h
    intro p hp
    rcases List.mem_cons.1 hp with rfl | hp
    · exact readsParts_opcode.field hopcode _ List.mem_cons_self
    · exact PrefixState.readsParts.field hprefixes p hp
  missing := nofun

theorem Instruction.length_lt_of_read? {j : Json} {d : Instruction} (h : read? j = some d) :
    d.length < 2 ^ 64 := by
  obtain ⟨-, -, names, members, -, m, -, hread⟩ := fieldRead h
  cases m with
  | none => cases hread
  | some x => exact lt_of_readNat? hread

theorem OpcodeTable.length_of_decode {t : OpcodeTable} {bytes : List UInt8} {mode : Mode}
    {d : Instruction} (h : t.decode bytes mode = .ok d) : d.length ≤ 15 := by
  have hbounds := t.decode_inBounds bytes mode
  rw [h] at hbounds
  cases hbounds with
  | decoded _ _ _ hmax _ => exact hmax

/-- Every checked part of what is read is valid and has come through its check, and what is
read is read again as it was once it has been written. -/
def ReadsChecked {α : Type} [JsonForm α] (parts : α → List CheckedPart) : Prop :=
  ∀ (j : Json) (a : α), read? j = some a →
    (∀ p ∈ parts a, p.IsValid ∧ ∃ x, Json.Within x j ∧ p.ReadFrom x) ∧ read? (write a) = some a

theorem ReadsParts.readsChecked {α : Type} [JsonForm α] {parts : α → List CheckedPart}
    (h : ReadsParts parts)
    (hback : ∀ {j : Json} {a : α}, read? j = some a → read? (write a) = some a) :
    ReadsChecked parts :=
  fun _ _ ha => ⟨fun p hp => ⟨p.isValid, h.value ha p hp⟩, hback ha⟩

/-- Rows, code strings, tables and prefix states are read back as they were written, whatever
they are, and so is an instruction that comes from decoding; and nothing is read that has not
been checked. -/
theorem json_readsBack_readsChecked :
    (∀ r : Row, read? (write r) = some r) ∧ (∀ c : Code, read? (write c) = some c) ∧
      (∀ t : OpcodeTable, read? (write t) = some t) ∧
      (∀ s : PrefixState, read? (write s) = some s) ∧
      (∀ (t : OpcodeTable) (bytes : List UInt8) (mode : Mode) (d : Instruction),
        t.decode bytes mode = .ok d → read? (write d) = some d) ∧
      ReadsChecked Row.checkedParts ∧ ReadsChecked Code.checkedParts ∧
      ReadsChecked OpcodeTable.checkedParts ∧ ReadsChecked PrefixState.checkedParts ∧
      ReadsChecked Instruction.checkedParts := by
  refine ⟨ReadsBack.read?_write, ReadsBack.read?_write, ReadsBack.read?_write,
    ReadsBack.read?_write, fun t bytes mode d h => ?_,
    Row.readsParts.readsChecked fun _ => ReadsBack.read?_write _,
    Code.readsParts.readsChecked fun _ => ReadsBack.read?_write _,
    OpcodeTable.readsParts.readsChecked fun _ => ReadsBack.read?_write _,
    PrefixState.readsParts.readsChecked fun _ => ReadsBack.read?_write _,
    Instruction.readsParts.readsChecked fun h =>
      Instruction.read?_write (Instruction.length_lt_of_read? h)⟩
  have hlength := OpcodeTable.length_of_decode h
  exact Instruction.read?_write (by omega)

theorem json_readsBack_readsChecked_adjust :
    ∃ d, OpcodeTable.adjustTable.decode [0xD5, 0x0A] .ia32 = .ok d ∧ read? (write d) = some d ∧
      ∃ x, Json.Within x (write d) ∧ (CheckedPart.opcode d.opcode).ReadFrom x := by
  obtain ⟨d, hd⟩ : ∃ d, OpcodeTable.adjustTable.decode [0xD5, 0x0A] .ia32 = .ok d := ⟨_, rfl⟩
  obtain ⟨-, -, -, -, hback, -, -, -, -, hchecked⟩ := json_readsBack_readsChecked
  have hread := hback _ _ _ _ hd
  obtain ⟨hparts, -⟩ := hchecked _ _ hread
  exact ⟨d, hd, hread, (hparts _ List.mem_cons_self).2⟩

end X86Encoding
