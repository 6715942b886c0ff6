import X86Encoding.Table.Decode

/-!
What it means for an entry to match at a decode point, said without the order in which its
bytes are read: where its parts are, whether they are all there, and how long it is. A trial
finds out exactly this, and two trials that lack bytes at one point lack the same ones.
-/

set_option autoImplicit false

namespace X86Encoding.DecodePoint

variable {p : DecodePoint} {d : OpcodeDescriptor} {e : TableEntry}

def modRMOf (p : DecodePoint) (d : OpcodeDescriptor) : Option ModRM :=
  if d.hasModRM then p.bytes[p.opcodeEnd]?.map ModRM.ofByte else none

def wantsSib (p : DecodePoint) (d : OpcodeDescriptor) : Bool :=
  (p.modRMOf d).any (·.needsSib p.prefixes.addressSize)

def sibOf (p : DecodePoint) (d : OpcodeDescriptor) : Option Sib :=
  if p.wantsSib d then p.bytes[p.opcodeEnd + 1]?.map Sib.ofByte else none

/-- A SIB byte without a base brings four bytes where the ModRM byte alone brings none. -/
def displacementOf (p : DecodePoint) (d : OpcodeDescriptor) : Nat :=
  match p.modRMOf d with
  | none => 0
  | some m =>
    if m.mod = 0 && (p.sibOf d).any (·.base = 5) then 4
    else m.displacementSize p.prefixes.addressSize

def immediateStart (p : DecodePoint) (d : OpcodeDescriptor) : Nat :=
  p.opcodeEnd + (if d.hasModRM then 1 else 0) + (if p.wantsSib d then 1 else 0) +
    p.displacementOf d

def imm8Of (p : DecodePoint) (d : OpcodeDescriptor) : Option UInt8 :=
  if d.fields.immediate.fixed? = some 1 then p.bytes[p.immediateStart d]? else none

def lengthOf (p : DecodePoint) (d : OpcodeDescriptor) : Nat :=
  p.immediateStart d + p.immediateBytes d

/-- The bytes that decide whether an entry matches are there. A displacement and an immediate
of another size than one byte may be missing. -/
structure IsReadable (p : DecodePoint) (d : OpcodeDescriptor) : Prop where
  modRM : d.hasModRM = true → p.opcodeEnd < p.bytes.length
  sib : p.wantsSib d = true → p.opcodeEnd + 1 < p.bytes.length
  imm8 : d.fields.immediate.fixed? = some 1 → p.immediateStart d < p.bytes.length

instance (p : DecodePoint) (d : OpcodeDescriptor) : Decidable (p.IsReadable d) :=
  decidable_of_iff ((d.hasModRM = true → p.opcodeEnd < p.bytes.length) ∧
      (p.wantsSib d = true → p.opcodeEnd + 1 < p.bytes.length) ∧
      (d.fields.immediate.fixed? = some 1 → p.immediateStart d < p.bytes.length))
    ⟨fun ⟨h₁, h₂, h₃⟩ => ⟨h₁, h₂, h₃⟩, fun h => ⟨h.modRM, h.sib, h.imm8⟩⟩

def IsCandidate (p : DecodePoint) (e : TableEntry) : Prop :=
  e.opcode.acceptsMainByte p.prefixes p.mainByte = true

instance (p : DecodePoint) (e : TableEntry) : Decidable (p.IsCandidate e) :=
  inferInstanceAs (Decidable (_ = true))

def Matches (p : DecodePoint) (e : TableEntry) : Prop :=
  p.IsReadable e.opcode ∧
    e.opcode.accepts p.prefixes p.mainByte (p.modRMOf e.opcode) (p.imm8Of e.opcode) = true

instance (p : DecodePoint) (e : TableEntry) : Decidable (p.Matches e) :=
  inferInstanceAs (Decidable (_ ∧ _))

theorem Matches.isCandidate (h : p.Matches e) : p.IsCandidate e := by
  have := h.2
  simp only [OpcodeDescriptor.accepts, Bool.and_eq_true] at this
  exact this.1.1.1

theorem opcodeEnd_le_immediateStart (p : DecodePoint) (d : OpcodeDescriptor) :
    p.opcodeEnd ≤ p.immediateStart d := by
  unfold immediateStart
  omega

theorem opcodeEnd_le_lengthOf (p : DecodePoint) (d : OpcodeDescriptor) :
    p.opcodeEnd ≤ p.lengthOf d :=
  Nat.le_trans (p.opcodeEnd_le_immediateStart d) (Nat.le_add_right ..)

/-- The number of bytes asked for where an entry cannot be read; it is the same for all. -/
def missingEnd (p : DecodePoint) : Nat :=
  match p.bytes.drop p.opcodeEnd with
  | [] => p.opcodeEnd + 1
  | b :: rest =>
    match (ModRM.ofByte b).addressingLength? p.prefixes.addressSize rest with
    | none => p.opcodeEnd + 2
    | some n => p.opcodeEnd + 1 + n + 1

def matchOf (p : DecodePoint) (e : TableEntry) : EntryMatch :=
  ⟨e, p.modRMOf e.opcode, p.imm8Of e.opcode, p.lengthOf e.opcode⟩

@[simp] theorem matchOf_entry (p : DecodePoint) (e : TableEntry) : (p.matchOf e).entry = e := rfl

@[simp] theorem matchOf_length (p : DecodePoint) (e : TableEntry) :
    (p.matchOf e).length = p.lengthOf e.opcode := rfl

theorem modRMOf_of_not (h : d.hasModRM = false) : p.modRMOf d = none := by
  simp [modRMOf, h]

theorem immediateStart_of_not (h : d.hasModRM = false) : p.immediateStart d = p.opcodeEnd := by
  simp [immediateStart, displacementOf, wantsSib, modRMOf, h]

theorem modRMOf_of_drop {b : UInt8} {rest : List UInt8} (h : d.hasModRM = true)
    (hb : p.bytes.drop p.opcodeEnd = b :: rest) : p.modRMOf d = some (.ofByte b) := by
  have : p.bytes[p.opcodeEnd]? = some b := by
    rw [← List.head?_drop, hb, List.head?_cons]
  simp [modRMOf, h, this]

theorem addressingLength?_eq {b : UInt8} {rest : List UInt8} (h : d.hasModRM = true)
    (hb : p.bytes.drop p.opcodeEnd = b :: rest) :
    (ModRM.ofByte b).addressingLength? p.prefixes.addressSize rest =
      if p.wantsSib d = true → p.opcodeEnd + 1 < p.bytes.length then
        some (p.immediateStart d - (p.opcodeEnd + 1))
      else none := by
  have hm := modRMOf_of_drop h hb
  have hw : p.wantsSib d = (ModRM.ofByte b).needsSib p.prefixes.addressSize := by
    simp [wantsSib, hm]
  have hl : p.bytes.length = p.opcodeEnd + 1 + rest.length := by
    have := congrArg List.length hb
    simp only [List.length_drop, List.length_cons] at this
    omega
  unfold ModRM.addressingLength?
  rw [← hw]
  cases hs : p.wantsSib d with
  | false => simp [immediateStart, displacementOf, sibOf, hm, hs, h]
  | true =>
    cases rest with
    | nil => simp [hl]
    | cons c rest =>
      have hc : p.bytes[p.opcodeEnd + 1]? = some c := by
        rw [← List.head?_drop, ← List.drop_drop, hb]
        rfl
      have hsib : p.sibOf d = some (.ofByte c) := by
        rw [sibOf, if_pos hs, hc, Option.map_some]
      simp only [immediateStart, displacementOf, hm, hs, h, hsib, hl, if_true, Option.any_some]
      rw [if_pos (fun _ => by simp)]
      split
      · simp
      · simp
        omega

/-- A trial reads the parts where they are, if they are there. -/
theorem readModRM_eq (p : DecodePoint) (d : OpcodeDescriptor) :
    p.readModRM d =
      if (d.hasModRM = true → p.opcodeEnd < p.bytes.length) ∧
          (p.wantsSib d = true → p.opcodeEnd + 1 < p.bytes.length) then
        .ok (p.modRMOf d, p.immediateStart d)
      else .error p.missingEnd := by
  unfold readModRM
  cases h : d.hasModRM with
  | false => simp [modRMOf_of_not h, immediateStart_of_not h, wantsSib]
  | true =>
    rw [if_pos rfl]
    cases hb : p.bytes.drop p.opcodeEnd with
    | nil =>
      have : p.bytes.length ≤ p.opcodeEnd := List.drop_eq_nil_iff.1 hb
      rw [if_neg (fun hc => by have := hc.1 rfl; omega)]
      simp only [missingEnd, hb]
    | cons b rest =>
      have hl := congrArg List.length hb
      simp only [List.length_drop, List.length_cons] at hl
      have ha := addressingLength?_eq h hb
      have hm := modRMOf_of_drop h hb
      have hle : p.opcodeEnd + 1 ≤ p.immediateStart d := by
        unfold immediateStart
        rw [h, if_pos rfl]
        omega
      by_cases hs : p.wantsSib d = true → p.opcodeEnd + 1 < p.bytes.length
      · rw [if_pos hs] at ha
        rw [if_pos ⟨fun _ => by omega, hs⟩]
        simp only [ha, hm]
        congr 2
        omega
      · rw [if_neg hs] at ha
        rw [if_neg (fun hc => hs hc.2)]
        simp only [ha, missingEnd, hb]

theorem missingEnd_of_imm8 (hm : d.hasModRM = true → p.opcodeEnd < p.bytes.length)
    (hs : p.wantsSib d = true → p.opcodeEnd + 1 < p.bytes.length)
    (hi : p.bytes.length ≤ p.immediateStart d) : p.missingEnd = p.immediateStart d + 1 := by
  unfold missingEnd
  cases h : d.hasModRM with
  | false =>
    rw [immediateStart_of_not h] at hi ⊢
    rw [List.drop_eq_nil_iff.2 hi]
  | true =>
    have hlt := hm h
    cases hb : p.bytes.drop p.opcodeEnd with
    | nil => rw [List.drop_eq_nil_iff] at hb; omega
    | cons b rest =>
      have hle : p.opcodeEnd + 1 ≤ p.immediateStart d := by
        unfold immediateStart
        rw [h, if_pos rfl]
        omega
      simp only [addressingLength?_eq h hb, if_pos hs]
      omega

theorem attempt_of_not_isReadable (h : ¬ p.IsReadable e.opcode) :
    p.attempt e = .needs p.missingEnd := by
  unfold attempt
  rw [readModRM_eq]
  by_cases ha : (e.opcode.hasModRM = true → p.opcodeEnd < p.bytes.length) ∧
      (p.wantsSib e.opcode = true → p.opcodeEnd + 1 < p.bytes.length)
  · rw [if_pos ha]
    have hi : ¬ (e.opcode.fields.immediate.fixed? = some 1 →
        p.immediateStart e.opcode < p.bytes.length) := fun hi => h ⟨ha.1, ha.2, hi⟩
    rw [Classical.not_imp, Nat.not_lt] at hi
    simp only [readImm8, if_pos hi.1, List.getElem?_eq_none hi.2, missingEnd_of_imm8 ha.1 ha.2 hi.2]
  · rw [if_neg ha]

theorem attempt_of_isReadable (h : p.IsReadable e.opcode) :
    p.attempt e = if p.Matches e then .found (p.matchOf e) else .mismatch := by
  unfold attempt
  rw [readModRM_eq, if_pos ⟨h.modRM, h.sib⟩]
  have hi : p.readImm8 e.opcode (p.immediateStart e.opcode) = .ok (p.imm8Of e.opcode) := by
    unfold readImm8 imm8Of
    split
    · rename_i hf
      rw [List.getElem?_eq_getElem (h.imm8 hf)]
    · rfl
  simp only [hi, Matches, h, true_and]
  rfl

/-- What an entry that cannot be read lacks first: its ModRM byte, its SIB byte, or an
immediate of one byte. -/
theorem missing_cases (h : ¬ p.IsReadable d) :
    (d.hasModRM = true ∧ p.bytes.length ≤ p.opcodeEnd ∧ p.missingEnd = p.opcodeEnd + 1) ∨
    (d.hasModRM = true ∧ p.opcodeEnd < p.bytes.length ∧ p.wantsSib d = true ∧
      p.bytes.length ≤ p.opcodeEnd + 1 ∧ p.missingEnd = p.opcodeEnd + 2) ∨
    ((d.hasModRM = true → p.opcodeEnd < p.bytes.length) ∧
      (p.wantsSib d = true → p.opcodeEnd + 1 < p.bytes.length) ∧
      d.fields.immediate.fixed? = some 1 ∧ p.bytes.length ≤ p.immediateStart d ∧
      p.missingEnd = p.immediateStart d + 1) := by
  by_cases hm : d.hasModRM = true → p.opcodeEnd < p.bytes.length
  · by_cases hs : p.wantsSib d = true → p.opcodeEnd + 1 < p.bytes.length
    · have hi : ¬ (d.fields.immediate.fixed? = some 1 → p.immediateStart d < p.bytes.length) :=
        fun hi => h ⟨hm, hs, hi⟩
      rw [Classical.not_imp, Nat.not_lt] at hi
      exact .inr (.inr ⟨hm, hs, hi.1, hi.2, missingEnd_of_imm8 hm hs hi.2⟩)
    · rw [Classical.not_imp, Nat.not_lt] at hs
      have hd : d.hasModRM = true := by
        cases hd : d.hasModRM with
        | true => rfl
        | false =>
          have hw := hs.1
          simp [wantsSib, modRMOf_of_not hd] at hw
      refine .inr (.inl ⟨hd, hm hd, hs.1, hs.2, ?_⟩)
      have hlt := hm hd
      cases hb : p.bytes.drop p.opcodeEnd with
      | nil => rw [List.drop_eq_nil_iff] at hb; omega
      | cons b rest =>
        have hn : ¬ (p.wantsSib d = true → p.opcodeEnd + 1 < p.bytes.length) := by
          intro h'
          have := h' hs.1
          omega
        simp only [missingEnd, hb, addressingLength?_eq hd hb, if_neg hn]
  · rw [Classical.not_imp, Nat.not_lt] at hm
    refine .inl ⟨hm.1, hm.2, ?_⟩
    simp only [missingEnd, List.drop_eq_nil_iff.2 hm.2]

theorem length_lt_missingEnd (h : ¬ p.IsReadable d) : p.bytes.length < p.missingEnd := by
  rcases missing_cases h with ⟨_, hl, he⟩ | ⟨_, _, _, hl, he⟩ | ⟨_, _, _, hl, he⟩ <;> omega

theorem immediateBytes_of_imm8 (h : d.fields.immediate.fixed? = some 1) :
    p.immediateBytes d = 1 := by
  unfold immediateBytes ImmediateSize.bytes
  unfold ImmediateSize.fixed? at h
  split at h
  · rename_i hv
    rw [hv, Option.some.inj h]
    rfl
  · cases h

end X86Encoding.DecodePoint
