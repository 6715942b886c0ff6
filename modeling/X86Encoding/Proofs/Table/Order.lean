import Mathlib.Data.List.Forall2
import X86Encoding.Proofs.Table.Meaning
import X86Encoding.Table.Sweep

set_option autoImplicit false

namespace X86Encoding.OpcodeTable

open DecodePoint

variable {t t' : OpcodeTable} {p : DecodePoint}

theorem matching_perm (h : t.entries.Perm t'.entries) (p : DecodePoint) :
    (t.matching p).Perm (t'.matching p) :=
  h.filter _

theorem unreadable_perm (h : t.entries.Perm t'.entries) (p : DecodePoint) :
    (t.unreadable p).Perm (t'.unreadable p) :=
  h.filter _

def SameUpToOrder : Except DecodeError Instruction → Except DecodeError Instruction → Prop
  | .ok d, .ok d' => d'.length = d.length ∧ d'.prefixes = d.prefixes ∧ d'.mainByte = d.mainByte
  | .error (.ambiguous names), .error (.ambiguous names') => names.Perm names'
  | .error e, .error e' => e = e'
  | _, _ => False

theorem sameUpToOrder_refl (r : Except DecodeError Instruction) : SameUpToOrder r r := by
  cases r with
  | ok d => exact ⟨rfl, rfl, rfl⟩
  | error e =>
    cases e with
    | ambiguous names => exact .refl names
    | _ => rfl

theorem answerSize_eq {r r' : Except DecodeError Instruction} (h : SameUpToOrder r r') :
    answerSize r = answerSize r' := by
  unfold SameUpToOrder at h
  split at h
  · exact h.1.symm
  · rfl
  · rfl
  · exact h.elim

theorem head_of_perm (h : t.entries.Perm t'.entries) {first : TableEntry}
    (hh : (t.matching p).head? = some first)
    (hall : ∀ e ∈ t.matching p, p.lengthOf e.opcode = p.lengthOf first.opcode) :
    ∃ first', (t'.matching p).head? = some first' ∧
      p.lengthOf first'.opcode = p.lengthOf first.opcode ∧
      ∀ e ∈ t'.matching p, p.lengthOf e.opcode = p.lengthOf first'.opcode := by
  have hp := matching_perm h p
  obtain ⟨first', rest, hm⟩ := List.exists_cons_of_ne_nil
    (List.ne_nil_of_mem (hp.mem_iff.1 (List.mem_of_mem_head? hh)))
  -- all lengths are equal, so it does not matter which entry comes first
  have hsame : ∀ e ∈ t'.matching p, p.lengthOf e.opcode = p.lengthOf first.opcode :=
    fun e he => hall e (hp.mem_iff.2 he)
  have hfirst := hsame first' (hm ▸ List.mem_cons_self)
  exact ⟨first', by rw [hm, List.head?_cons], hfirst, fun e he => (hsame e he).trans hfirst.symm⟩

theorem verdict_perm (h : t.entries.Perm t'.entries) (p : DecodePoint) :
    SameUpToOrder (verdict p (t.trials p)) (verdict p (t'.trials p)) := by
  have hp := matching_perm h p
  have hu := unreadable_perm h p
  have ho := t.outcome_verdict p
  generalize verdict p (t.trials p) = r at ho
  cases ho with
  | decoded hh hall hmax hlen =>
    obtain ⟨first', hh', hl, hall'⟩ := head_of_perm h hh hall
    rw [verdict_of_outcome (.decoded hh' hall' (by omega) (by omega))]
    exact ⟨hl, rfl, rfl⟩
  | cutShort hh hall hmax hlen =>
    obtain ⟨first', hh', hl, hall'⟩ := head_of_perm h hh hall
    rw [verdict_of_outcome (.cutShort hh' hall' (by omega) (by omega)), hl]
    rfl
  | tooLong hh hall hmax =>
    obtain ⟨first', hh', hl, hall'⟩ := head_of_perm h hh hall
    rw [verdict_of_outcome (.tooLong hh' hall' (by omega)), hl]
    rfl
  | ambiguous he he' hne =>
    rw [verdict_of_outcome (.ambiguous (hp.mem_iff.1 he) (hp.mem_iff.1 he') hne)]
    exact hp.map _
  | unread hm he =>
    rw [hm] at hp
    rw [verdict_of_outcome (.unread hp.nil_eq.symm (hu.mem_iff.1 he))]
    rfl
  | noMatch hm hn =>
    rw [hm] at hp
    rw [hn] at hu
    rw [verdict_of_outcome (.noMatch hp.nil_eq.symm hu.nil_eq.symm)]
    rfl

theorem decode_perm (h : t.entries.Perm t'.entries) (bytes : List UInt8) (mode : Mode) :
    SameUpToOrder (t.decode bytes mode) (t'.decode bytes mode) := by
  rw [decode_eq_locate, decode_eq_locate]
  cases locate bytes mode with
  | error e => exact sameUpToOrder_refl _
  | ok p => exact verdict_perm h p

def SameItem (a a' : Nat × Except DecodeError Instruction) : Prop :=
  a.1 = a'.1 ∧ answerSize a.2 = answerSize a'.2 ∧ SameUpToOrder a.2 a'.2

theorem sweepFrom_perm (h : t.entries.Perm t'.entries) (mode : Mode) (offset : Nat)
    (bytes : List UInt8) :
    List.Forall₂ SameItem (t.sweepFrom mode offset bytes) (t'.sweepFrom mode offset bytes) := by
  fun_induction sweepFrom t mode offset bytes with
  | case1 offset =>
    rw [sweepFrom]
    exact .nil
  | case2 offset b rest answer ih =>
    rw [sweepFrom]
    have hd := decode_perm h (b :: rest) mode
    have hs := answerSize_eq hd
    -- after as many bytes both go on with the same rest
    refine .cons ⟨rfl, hs, hd⟩ ?_
    rw [← hs]
    exact ih

/-- The order of the entries decides which of them names an instruction, and nothing else; so a
sweep goes by the same places and sizes. -/
theorem decode_sweep_perm (h : t.entries.Perm t'.entries) (bytes : List UInt8) (mode : Mode) :
    SameUpToOrder (t.decode bytes mode) (t'.decode bytes mode) ∧
      List.Forall₂ SameItem (t.sweep bytes mode) (t'.sweep bytes mode) :=
  ⟨decode_perm h bytes mode, sweepFrom_perm h mode 0 bytes⟩

def adjustTableReversed : OpcodeTable := ⟨adjustTable.entries.reverse⟩

theorem decode_sweep_perm_adjust :
    adjustTable.entries.Perm adjustTableReversed.entries ∧
      ∃ d d', adjustTable.decode [0xD5, 0x0A, 0x90] .ia32 = .ok d ∧
        adjustTableReversed.decode [0xD5, 0x0A, 0x90] .ia32 = .ok d' ∧
        d.mnemonic = "aad".toList ∧ d'.mnemonic = "aadx".toList ∧ d'.length = d.length ∧
        List.Forall₂ SameItem (adjustTable.sweep [0xD5, 0x0A, 0x90] .ia32)
          (adjustTableReversed.sweep [0xD5, 0x0A, 0x90] .ia32) := by
  have hperm : adjustTable.entries.Perm adjustTableReversed.entries :=
    (List.reverse_perm _).symm
  obtain ⟨d, hd, hm⟩ : ∃ d, adjustTable.decode [0xD5, 0x0A, 0x90] .ia32 = .ok d ∧
      d.mnemonic = "aad".toList := ⟨_, rfl, rfl⟩
  obtain ⟨d', hd', hm'⟩ : ∃ d', adjustTableReversed.decode [0xD5, 0x0A, 0x90] .ia32 = .ok d' ∧
      d'.mnemonic = "aadx".toList := ⟨_, rfl, rfl⟩
  obtain ⟨hs, hsweep⟩ := decode_sweep_perm hperm [0xD5, 0x0A, 0x90] .ia32
  rw [hd, hd'] at hs
  exact ⟨hperm, d, d', hd, hd', hm, hm', hs.1, hsweep⟩

end X86Encoding.OpcodeTable
