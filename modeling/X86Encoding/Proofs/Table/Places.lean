import Mathlib.Data.List.Basic
import X86Encoding.Proofs.Prefix.Reading
import X86Encoding.Table.Decode

/-!
Decoding by places in the input. The readers take what they need from the front of a list and
count as they go; here every byte is taken at the place it has among all of them. A place that
no test has found in the input is read without one, and then a place outside is no answer at
all. There always is an answer, and it is the one of the readers: what they count is where they
are, and nothing outside the input is ever taken.
-/

set_option autoImplicit false

namespace X86Encoding

def slice? (bytes : List UInt8) (i j : Nat) : Option (List UInt8) :=
  if i ≤ j ∧ j ≤ bytes.length then some ((bytes.drop i).take (j - i)) else none

theorem slice?_of_le {bytes : List UInt8} {i j : Nat} (hi : i ≤ j) (hj : j ≤ bytes.length) :
    slice? bytes i j = some ((bytes.drop i).take (j - i)) :=
  if_pos ⟨hi, hj⟩

theorem places_of_drop {bytes rest : List UInt8} {i : Nat} {b : UInt8}
    (h : bytes.drop i = b :: rest) :
    bytes[i]? = some b ∧ bytes.drop (i + 1) = rest ∧ bytes.length = i + 1 + rest.length := by
  refine ⟨by rw [← List.head?_drop, h, List.head?_cons], ?_, ?_⟩
  · rw [← List.drop_drop, h, List.drop_succ_cons, List.drop_zero]
  · have := congrArg List.length h
    simp only [List.length_drop, List.length_cons] at this
    omega

theorem getElem?_of_drop_nil {bytes : List UInt8} {i : Nat} (h : bytes.drop i = []) :
    bytes[i]? = none := by
  rw [← List.head?_drop, h, List.head?_nil]

namespace VectorLead

def readAt? (lead : VectorLead) (payload : List UInt8) : Option (Option VectorPrefix) := do
  match lead with
  | .vex2 => return some (.ofVex2 (← payload[0]?))
  | .vex3 => return VectorPrefix.ofVex3? (← payload[0]?) (← payload[1]?)
  | .xop => return VectorPrefix.ofXop? (← payload[0]?) (← payload[1]?)
  | .evex => return VectorPrefix.ofEvex? (← payload[0]?) (← payload[1]?) (← payload[2]?)

theorem readAt?_eq {lead : VectorLead} {payload : List UInt8}
    (h : payload.length = lead.payloadSize) : lead.readAt? payload = some (lead.read? payload) := by
  cases lead with
  | vex2 =>
    obtain ⟨b, rfl⟩ := List.length_eq_one_iff.1 h
    rfl
  | vex3 =>
    obtain ⟨b₁, b₂, rfl⟩ := List.length_eq_two.1 h
    rfl
  | xop =>
    obtain ⟨b₁, b₂, rfl⟩ := List.length_eq_two.1 h
    rfl
  | evex =>
    obtain ⟨p₀, p₁, p₂, rfl⟩ := List.length_eq_three.1 h
    rfl

end VectorLead

namespace PrefixState

def escapeAt (bytes : List UInt8) (mode : Mode) (legacy : PrefixList)
    (extended : Option ExtendedPrefix) (offset : Nat) : Reading :=
  if bytes[offset]? = some 0x0F then
    if bytes[offset + 1]? = some 0x38 then
      .ok (⟨mode, legacy, extended, .escape0F38⟩, offset + 2)
    else if bytes[offset + 1]? = some 0x3A then
      .ok (⟨mode, legacy, extended, .escape0F3A⟩, offset + 2)
    else .ok (⟨mode, legacy, extended, .escape0F⟩, offset + 1)
  else .ok (⟨mode, legacy, extended, .primary⟩, offset)

/-- The lead byte at `offset` and the payload behind it are taken without a test of their own. -/
def leadAt (bytes : List UInt8) (mode : Mode) (legacy : PrefixList) (offset : Nat) :
    Option Reading := do
  let lead ← VectorLead.ofByte? (← bytes[offset]?)
  match bytes[offset + 1]? with
  | none => return .error (.truncated (offset + 2) bytes.length)
  | some b =>
    if lead.starts mode b then
      if legacy.toList.any displaced.contains then
        return .error (.invalidPrefix offset .vectorAfterLegacy)
      else if bytes.length < offset + 1 + lead.payloadSize then
        return .error (.truncated (offset + 1 + lead.payloadSize) bytes.length)
      else
        match ← lead.readAt? (← slice? bytes (offset + 1) (offset + 1 + lead.payloadSize)) with
        | none => return .error (.invalidPrefix offset (.malformed lead.byte))
        | some p =>
          return .ok (⟨mode, legacy, some (.vector p), p.map⟩, offset + 1 + lead.payloadSize)
    else return .ok (⟨mode, legacy, none, .primary⟩, offset)

def afterLegacyAt (bytes : List UInt8) (mode : Mode) (legacy : PrefixList) (offset : Nat) :
    Option Reading :=
  match bytes[offset]? with
  | none => some (.error (.truncated (offset + 1) bytes.length))
  | some b =>
    if mode.isLong && Rex.isByte b then
      match bytes[offset + 1]? with
      | none => some (.error (.truncated (offset + 1 + 1) bytes.length))
      | some c =>
        if (LegacyPrefix.ofByte? c).isSome || Rex.isByte c then
          some (.error (.invalidPrefix (offset + 1) .rexNotLast))
        else some (escapeAt bytes mode legacy (some (.rex (.ofByte b))) (offset + 1))
    else if (VectorLead.ofByte? b).isSome then leadAt bytes mode legacy offset
    else some (escapeAt bytes mode legacy none offset)

def readAt (bytes : List UInt8) (mode : Mode) : Option Reading :=
  let ps := LegacyPrefix.leading bytes
  match PrefixList.ofList ps with
  | .error _ => some (.error (.tooLong (PrefixList.capacity + 1)))
  | .ok legacy => afterLegacyAt bytes mode legacy ps.length

variable (bytes : List UInt8) (mode : Mode) (legacy : PrefixList) (offset : Nat)

@[simp] theorem escapeAt_eq (extended : Option ExtendedPrefix) :
    escapeAt bytes mode legacy extended offset =
      readEscape mode legacy extended offset (bytes.drop offset) := by
  unfold escapeAt
  cases h : bytes.drop offset with
  | nil => simp [getElem?_of_drop_nil h, readEscape, OpcodeMap.leading]
  | cons b rest =>
    obtain ⟨hb, hrest, -⟩ := places_of_drop h
    rw [hb, readEscape_eq]
    cases rest with
    | nil =>
      rw [getElem?_of_drop_nil hrest, OpcodeMap.leading_singleton]
      by_cases hb : b = 0x0F <;> simp [hb]
    | cons c rest =>
      rw [(places_of_drop hrest).1, OpcodeMap.leading_cons_cons]
      simp only [Option.some.injEq]
      split
      · split
        · rfl
        · split <;> rfl
      · rfl

theorem leadAt_eq {b : UInt8} {lead : VectorLead} {rest : List UInt8}
    (h : bytes.drop offset = b :: rest) (hb : VectorLead.ofByte? b = some lead) :
    leadAt bytes mode legacy offset =
      some (readAfterLead bytes.length mode legacy lead offset rest) := by
  obtain ⟨hat, hrest, hlen⟩ := places_of_drop h
  unfold leadAt
  simp only [hat, hb, Option.bind_eq_bind, Option.bind_some]
  cases rest with
  | nil => simp only [getElem?_of_drop_nil hrest, readAfterLead]; rfl
  | cons c rest =>
    simp only [(places_of_drop hrest).1, readAfterLead]
    split
    · split
      · rfl
      · by_cases hshort : (c :: rest).length < lead.payloadSize
        · rw [if_pos hshort, if_pos (by omega)]
          rfl
        · have hsize : ((c :: rest).take lead.payloadSize).length = lead.payloadSize := by
            rw [List.length_take]
            omega
          rw [if_neg hshort, if_neg (by omega), slice?_of_le (by omega) (by omega), hrest,
            Nat.add_sub_cancel_left]
          simp only [Option.bind_some, VectorLead.readAt?_eq hsize]
          cases lead.read? ((c :: rest).take lead.payloadSize) <;> rfl
    · rfl

@[simp] theorem afterLegacyAt_eq :
    afterLegacyAt bytes mode legacy offset =
      some (readAfterLegacy bytes.length mode legacy offset (bytes.drop offset)) := by
  unfold afterLegacyAt
  cases h : bytes.drop offset with
  | nil => simp only [getElem?_of_drop_nil h, readAfterLegacy]
  | cons b rest =>
    obtain ⟨hat, hrest, -⟩ := places_of_drop h
    simp only [hat, readAfterLegacy]
    split
    · cases rest with
      | nil => simp only [getElem?_of_drop_nil hrest, readAfterRex]
      | cons c rest =>
        simp only [(places_of_drop hrest).1, readAfterRex, escapeAt_eq, hrest]
        split <;> rfl
    · cases hb : VectorLead.ofByte? b with
      | none => simp only [escapeAt_eq, h]; rfl
      | some lead => simp only [leadAt_eq bytes mode legacy offset h hb]; rfl

theorem readAt_eq : readAt bytes mode = some (read bytes mode) := by
  simp only [readAt, read, afterLegacyAt_eq]
  cases PrefixList.ofList (LegacyPrefix.leading bytes) <;> rfl

end PrefixState

namespace DecodePoint

def immediateAt (p : DecodePoint) (e : TableEntry) (modRM : Option ModRM) (offset : Nat) :
    Trial :=
  match p.readImm8 e.opcode offset with
  | .error n => .needs n
  | .ok imm8 =>
    if e.opcode.accepts p.prefixes p.mainByte modRM imm8 then
      .found ⟨e, modRM, imm8, offset + p.immediateBytes e.opcode⟩
    else .mismatch

/-- What follows the ModRM byte is taken without a test. -/
def attemptAt (p : DecodePoint) (e : TableEntry) : Option Trial :=
  if e.opcode.hasModRM then
    match p.bytes[p.opcodeEnd]? with
    | none => some (.needs (p.opcodeEnd + 1))
    | some b => do
      let rest ← slice? p.bytes (p.opcodeEnd + 1) p.bytes.length
      match (ModRM.ofByte b).addressingLength? p.prefixes.addressSize rest with
      | none => return .needs (p.opcodeEnd + 2)
      | some n => return p.immediateAt e (some (.ofByte b)) (p.opcodeEnd + 1 + n)
  else some (p.immediateAt e none p.opcodeEnd)

theorem attemptAt_eq (p : DecodePoint) (e : TableEntry) : p.attemptAt e = some (p.attempt e) := by
  unfold attemptAt attempt readModRM
  cases e.opcode.hasModRM with
  | false => rfl
  | true =>
    simp only [if_true]
    cases h : p.bytes.drop p.opcodeEnd with
    | nil => simp only [getElem?_of_drop_nil h]
    | cons b rest =>
      obtain ⟨hat, hrest, hlen⟩ := places_of_drop h
      have htake : rest.take (p.bytes.length - (p.opcodeEnd + 1)) = rest :=
        List.take_of_length_le (by omega)
      simp only [hat, slice?_of_le (show p.opcodeEnd + 1 ≤ p.bytes.length by omega) (Nat.le_refl _),
        hrest, htake, Option.bind_eq_bind, Option.bind_some]
      cases (ModRM.ofByte b).addressingLength? p.prefixes.addressSize rest <;> rfl

end DecodePoint

namespace OpcodeTable

def verdictAt (p : DecodePoint) (trials : List Trial) : Option (Except DecodeError Instruction) :=
  match verdict p trials with
  | .error (.noMatch _) => do
    return .error (.noMatch (← slice? p.bytes 0 (min p.opcodeEnd p.bytes.length)))
  | answer => some answer

def decodeAt (t : OpcodeTable) (bytes : List UInt8) (mode : Mode) :
    Option (Except DecodeError Instruction) := do
  match ← PrefixState.readAt bytes mode with
  | .error e => return .error e
  | .ok (prefixes, offset) =>
    match bytes[offset]? with
    | none => return .error (.truncated (offset + 1) bytes.length)
    | some mainByte =>
      let p : DecodePoint := ⟨bytes, prefixes, offset, mainByte⟩
      verdictAt p (← (t.candidates prefixes mainByte).mapM p.attemptAt)

theorem seen_of_verdict {p : DecodePoint} {trials : List Trial} {seen : List UInt8}
    (h : verdict p trials = .error (.noMatch seen)) : seen = p.bytes.take p.opcodeEnd := by
  unfold verdict at h
  split at h
  · split at h
    · cases h
    · cases h
      rfl
  · repeat' split at h
    all_goals cases h

theorem verdictAt_eq (p : DecodePoint) (trials : List Trial) :
    verdictAt p trials = some (verdict p trials) := by
  unfold verdictAt
  split
  · rename_i seen h
    rw [h, seen_of_verdict h, slice?_of_le (Nat.zero_le _) (Nat.min_le_right ..), List.drop_zero,
      Nat.sub_zero, ← List.take_eq_take_min]
    rfl
  · rfl

/-- Every byte is taken at a place in the input. -/
theorem decodeAt_eq (t : OpcodeTable) (bytes : List UInt8) (mode : Mode) :
    t.decodeAt bytes mode = some (t.decode bytes mode) := by
  unfold decodeAt decode
  rw [PrefixState.readAt_eq]
  simp only [Option.bind_eq_bind, Option.bind_some]
  cases PrefixState.read bytes mode with
  | error e => rfl
  | ok r =>
    dsimp only
    cases bytes[r.2]? with
    | none => rfl
    | some mainByte =>
      have htrials : (t.candidates r.1 mainByte).mapM
          (DecodePoint.attemptAt ⟨bytes, r.1, r.2, mainByte⟩) =
            some (t.trials ⟨bytes, r.1, r.2, mainByte⟩) := by
        simp only [funext (DecodePoint.attemptAt_eq _)]
        exact List.mapM_pure ..
      dsimp only
      rw [htrials]
      exact verdictAt_eq ..

end OpcodeTable
end X86Encoding
