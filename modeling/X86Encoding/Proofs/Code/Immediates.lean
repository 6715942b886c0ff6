import X86Encoding.Proofs.Code.Assembly
import X86Encoding.Proofs.Consistency

/-!
The immediates of a descriptor. Its fixed bytes are those that the tokens add, and one more where a
byte behind the main byte is the value of an immediate; its immediate of variable size is the one
that a token asks for. More than eight bytes, or a second immediate of variable size, is refused.
-/

set_option autoImplicit false

namespace X86Encoding

namespace Token

def varying? : Token → Option VariableImmediate
  | .iwd | .rel => some .wordOrDword
  | .iwdq => some .wordDwordOrQword
  | _ => none

def totalBytes : List Token → Nat
  | [] => 0
  | t :: ts => t.immediateBytes.toNat + totalBytes ts

def isImmediate : Token → Bool
  | .ib | .ibSigned | .ibUnsigned | .rel8 | .is4 | .iw | .seg | .id | .idSigned | .iq
  | .iwd | .rel | .iwdq => true
  | _ => false

theorem isImmediate_iff {t : Token} :
    t.isImmediate = true ↔ t.immediateBytes ≠ 0 ∨ t.varying? ≠ none := by
  cases t <;> simp [isImmediate, immediateBytes, varying?]

theorem immediateBytes_le (t : Token) : t.immediateBytes.toNat ≤ 8 := by
  unfold immediateBytes
  split <;> decide

@[simp, grind =] theorem totalBytes_nil : totalBytes [] = 0 := rfl

@[simp, grind =] theorem totalBytes_cons (t : Token) (ts : List Token) :
    totalBytes (t :: ts) = t.immediateBytes.toNat + totalBytes ts := rfl

theorem immediateBytes_le_totalBytes {t : Token} {ts : List Token} (h : t ∈ ts) :
    t.immediateBytes.toNat ≤ totalBytes ts := by
  induction h with
  | head ts => exact Nat.le_add_right _ _
  | tail u _ ih => exact Nat.le_trans ih (Nat.le_add_left _ _)

theorem totalBytes_perm {ts us : List Token} (h : ts.Perm us) :
    totalBytes ts = totalBytes us := by
  induction h with
  | nil => rfl
  | cons t _ ih => simp [ih]
  | swap t u ts => exact Nat.add_left_comm _ _ _
  | trans _ _ ih₁ ih₂ => exact ih₁.trans ih₂

end Token

def OpcodeFields.ownBytes (f : OpcodeFields) : Nat := if f.opcodeImmediate.isSome then 1 else 0

namespace Assembly

variable {context : Code.Context} {a a' : Assembly} {t : Token}

/-- What a run does to the immediates. The byte of the opcode is added where its value is set, and
that is done once. -/
structure TailRun (a : Assembly) (ts : List Token) (a' : Assembly) : Prop where
  fixedBytes : a'.fields.immediate.fixedBytes.toNat + a.fields.ownBytes =
    a.fields.immediate.fixedBytes.toNat + Token.totalBytes ts + a'.fields.ownBytes
  fixedBytes_le : a.fields.immediate.fixedBytes.toNat ≤ 8 →
    a'.fields.immediate.fixedBytes.toNat ≤ 8
  varying : a'.fields.immediate.varying.toList =
    a.fields.immediate.varying.toList ++ ts.filterMap Token.varying?
  ownBytes_le : a.fields.ownBytes ≤ a'.fields.ownBytes

theorem TailRun.same (hbytes : t.immediateBytes = 0) (hvarying : t.varying? = none)
    (himmediate : a'.fields.immediate = a.fields.immediate)
    (hown : a'.fields.opcodeImmediate = a.fields.opcodeImmediate) : TailRun a [t] a' := by
  have hownBytes : a'.fields.ownBytes = a.fields.ownBytes := by
    rw [OpcodeFields.ownBytes, OpcodeFields.ownBytes, hown]
  constructor
  · simp [himmediate, hbytes, hownBytes]
  · rw [himmediate]
    exact id
  · rw [himmediate, List.filterMap_cons_none hvarying, List.filterMap_nil, List.append_nil]
  · exact Nat.le_of_eq hownBytes.symm

theorem toNat_add_of_le {m n : UInt8} (h : m.toNat + n.toNat ≤ 8) :
    (m + n).toNat = m.toNat + n.toNat := by
  rw [UInt8.toNat_add, Nat.mod_eq_of_lt (by omega)]

theorem tailRun_of_addImmediate (hvarying : t.varying? = none)
    (h : a.addImmediate t.immediateBytes = .ok a') : TailRun a [t] a' := by
  obtain ⟨hsize, rfl⟩ := addImmediate_eq_ok.1 h
  have hsum := toNat_add_of_le hsize
  constructor
  · exact congrArg (· + a.fields.ownBytes) hsum
  · exact fun _ => hsum ▸ hsize
  · rw [List.filterMap_cons_none hvarying, List.filterMap_nil, List.append_nil]
  · exact Nat.le_refl _

theorem tailRun_of_setVarying {v : VariableImmediate} (hbytes : t.immediateBytes = 0)
    (hvarying : t.varying? = some v) (h : a.setVarying v = .ok a') : TailRun a [t] a' := by
  obtain ⟨hnone, rfl⟩ := setVarying_eq_ok.1 h
  constructor
  · rw [Token.totalBytes_cons, hbytes]
    rfl
  · exact id
  · rw [hnone, List.filterMap_cons_some hvarying]
    rfl
  · exact Nat.le_refl _

theorem tailRun_of_setSimd {p : SimdPrefix} (hbytes : t.immediateBytes = 0)
    (hvarying : t.varying? = none) (h : a.setSimd p = .ok a') : TailRun a [t] a' := by
  obtain ⟨-, rfl⟩ := setSimd_eq_ok.1 h
  exact .same hbytes hvarying rfl rfl

theorem tailRun_of_setMap {map : OpcodeMap} (hbytes : t.immediateBytes = 0)
    (hvarying : t.varying? = none) (h : a.setMap map = .ok a') : TailRun a [t] a' := by
  obtain ⟨-, rfl⟩ := setMap_eq_ok.1 h
  exact .same hbytes hvarying rfl rfl

theorem tailRun_of_setForm {form : AddressingForm} (hbytes : t.immediateBytes = 0)
    (hvarying : t.varying? = none) (h : a.setForm form = .ok a') : TailRun a [t] a' := by
  obtain ⟨-, rfl⟩ := setForm_eq_ok.1 h
  exact .same hbytes hvarying rfl rfl

theorem tailRun_of_addByte {b : UInt8} (h : a.addByte b = .ok a') : TailRun a [.byte b] a' := by
  unfold addByte at h
  split at h
  · split at h
    · exact tailRun_of_setSimd rfl rfl h
    · exact tailRun_of_setMap rfl rfl h
    · cases h
      exact .same rfl rfl rfl rfl
  · split at h
    · exact tailRun_of_setForm rfl rfl h
    · -- the value of an immediate, which there was none of before
      obtain ⟨hnone, h⟩ := ite_fail_eq_ok.1 h
      obtain ⟨hsize, rfl⟩ := addImmediate_eq_ok.1 h
      have hsum := toNat_add_of_le hsize
      have hown : a.fields.ownBytes = 0 := by
        rw [OpcodeFields.ownBytes, if_neg hnone]
      constructor
      · rw [hown]
        exact hsum
      · exact fun _ => hsum ▸ hsize
      · exact (List.append_nil _).symm
      · rw [hown]
        exact Nat.zero_le _

theorem tailRun_of_addRegisterByte {b : UInt8} (h : a.addRegisterByte b = .ok a') :
    TailRun a [.bytePlusRegister b] a' := by
  unfold addRegisterByte at h
  split at h
  · cases h
    exact .same rfl rfl rfl rfl
  · obtain ⟨-, h⟩ := ite_fail_eq_ok.1 h
    exact tailRun_of_setForm rfl rfl h

theorem tailRun_of_addConditionByte {b : UInt8}
    (h : a.addConditionByte context.condition b = .ok a') :
    TailRun a [.bytePlusCondition b] a' := by
  unfold addConditionByte at h
  obtain ⟨-, h⟩ := ite_fail_eq_ok.1 h
  split at h
  · cases h
  · cases h
    exact .same rfl rfl rfl rfl

theorem tailRun_of_add (h : a.add context t = .ok a') : TailRun a [t] a' := by
  cases t with
  | byte b => exact tailRun_of_addByte h
  | bytePlusRegister b => exact tailRun_of_addRegisterByte h
  | bytePlusCondition b => exact tailRun_of_addConditionByte h
  | modRMReg | modRM => exact tailRun_of_setForm rfl rfl h
  | vex =>
    obtain ⟨-, h⟩ := ite_fail_eq_ok.1 h
    cases h
    exact .same rfl rfl rfl rfl
  | iwd | rel | iwdq => exact tailRun_of_setVarying rfl rfl h
  | is4 | ib | ibSigned | ibUnsigned | iw | id | idSigned | iq | rel8 | seg =>
    exact tailRun_of_addImmediate rfl h
  | o16 | o32 | rexW | noRexW | a32 | operandDefault | addressDefault =>
    cases h
    exact .same rfl rfl rfl rfl
  | o64 | o64NoW | x64 | ia32 | a16 | a64 =>
    obtain ⟨-, rfl⟩ := setMode_eq_ok.1 h
    exact .same rfl rfl rfl rfl
  | noSimd => exact tailRun_of_setSimd rfl rfl h
  | escape0F38 | escape0F3A => exact tailRun_of_setMap rfl rfl h
  | marker m =>
    cases m with
    | f2i | f3i => exact tailRun_of_setSimd rfl rfl h
    | _ =>
      cases h
      exact .same rfl rfl rfl rfl

theorem TailRun.cons {b : Assembly} {ts : List Token} (hstep : TailRun a [t] b)
    (hrun : TailRun b ts a') : TailRun a (t :: ts) a' := by
  constructor
  · have hfirst := hstep.fixedBytes
    have hrest := hrun.fixedBytes
    grind
  · exact fun ha => hrun.fixedBytes_le (hstep.fixedBytes_le ha)
  · rw [hrun.varying, hstep.varying, List.append_assoc, ← List.filterMap_append]
    rfl
  · exact Nat.le_trans hstep.ownBytes_le hrun.ownBytes_le

theorem tailRun_of_addAll {ts : List Token} (h : a.addAll context ts = .ok a') :
    TailRun a ts a' := by
  induction ts generalizing a with
  | nil =>
    cases h
    exact ⟨rfl, id, (List.append_nil _).symm, Nat.le_refl _⟩
  | cons t ts ih =>
    obtain ⟨b, hb, h⟩ := addAll_cons_eq_ok.1 h
    exact (tailRun_of_add hb).cons (ih h)

end Assembly

namespace Code

variable {c : Code} {context : Context} {d : OpcodeDescriptor}

@[simp] theorem immediate_start (context : Context) (vex : Option VexDescriptor) :
    (Assembly.start context vex).fields.immediate = .zero := by
  cases vex <;> rfl

theorem fixedBytes_start_le (context : Context) (vex : Option VexDescriptor) :
    (Assembly.start context vex).fields.immediate.fixedBytes.toNat ≤ 8 := by
  rw [immediate_start]
  exact Nat.zero_le 8

theorem immediate_of_start {ts : List Token} {a : Assembly}
    (h : (Assembly.start context c.vex).addAll context ts = .ok a) :
    a.fields.immediate.fixedBytes.toNat = Token.totalBytes ts + a.fields.ownBytes ∧
      a.fields.immediate.fixedBytes.toNat ≤ 8 ∧
      a.fields.immediate.varying.toList = ts.filterMap Token.varying? := by
  have hrun := Assembly.tailRun_of_addAll h
  have hown : (Assembly.start context c.vex).fields.ownBytes = 0 := by
    cases c.vex <;> rfl
  have hfixed := hrun.fixedBytes
  have hvarying := hrun.varying
  rw [immediate_start] at hfixed hvarying
  rw [hown] at hfixed
  exact ⟨by simpa [ImmediateSize.zero] using hfixed,
    hrun.fixedBytes_le (fixedBytes_start_le context c.vex), hvarying⟩

theorem immediate_of_compile (h : c.compile context = .ok d) :
    d.fields.immediate.fixedBytes.toNat = Token.totalBytes c.tokens + d.fields.ownBytes ∧
      d.fields.immediate.fixedBytes.toNat ≤ 8 ∧
      d.fields.immediate.varying.toList = c.tokens.filterMap Token.varying? := by
  obtain ⟨a, hrun, -, hfields⟩ := assembly_of_compile h
  rw [hfields]
  exact immediate_of_start hrun

theorem isImmediate_eq_false_of_compile (h : c.compile context = .ok d)
    (hvalue : d.fields.opcodeImmediate ≠ none) {t : Token} (ht : t ∈ c.tokens) :
    t.isImmediate = false := by
  obtain ⟨hbytes, -, hvarying⟩ := immediate_of_compile h
  have hfixed := d.isConsistent.immediate_fixed hvalue
  have hown : d.fields.ownBytes = 1 := if_pos (Option.isSome_iff_ne_none.2 hvalue)
  unfold ImmediateSize.fixed? at hfixed
  split at hfixed
  · next hnone =>
    -- one byte in all leaves none for the tokens, and nothing varies
    have hone := Option.some.inj hfixed
    have htotal := Token.immediateBytes_le_totalBytes ht
    have hzero : t.immediateBytes.toNat = (0 : UInt8).toNat := Nat.le_zero.1 (by omega)
    have hask : t.varying? = none := by
      rw [hnone] at hvarying
      exact List.filterMap_eq_nil_iff.1 hvarying.symm t ht
    rw [Bool.eq_false_iff, ne_eq, Token.isImmediate_iff]
    exact not_or.2 ⟨fun hne => hne (UInt8.toNat_inj.1 hzero), fun hne => hne hask⟩
  · cases hfixed

/-- Every immediate byte is counted once: the fixed bytes are those of the tokens and the byte that
belongs to the opcode, at most eight, and no addition on the way leaves the range of a byte. The
immediate of variable size is that of the one token that has it, and the byte of the opcode leaves
no room for any immediate token. Too many bytes, or two immediates of variable size, are refused. -/
theorem compile_immediates (c : Code) (context : Context) :
    (∀ d, c.compile context = .ok d →
      d.fields.immediate.fixedBytes.toNat = Token.totalBytes c.tokens + d.fields.ownBytes ∧
      d.fields.immediate.fixedBytes.toNat ≤ 8 ∧
      (c.tokens.filterMap Token.varying?).length ≤ 1 ∧
      d.fields.immediate.varying = (c.tokens.filterMap Token.varying?).head? ∧
      (d.fields.opcodeImmediate ≠ none → ∀ t ∈ c.tokens, t.isImmediate = false)) ∧
    (∀ before t after a, c.tokens = before ++ t :: after →
      (Assembly.start context c.vex).addAll context before = .ok a →
      a.fields.immediate.fixedBytes.toNat + t.immediateBytes.toNat < UInt8.size ∧
        a.fields.immediate.fixedBytes.toNat + 1 < UInt8.size) ∧
    (8 < Token.totalBytes c.tokens ∨ 1 < (c.tokens.filterMap Token.varying?).length →
      ∃ e, c.compile context = .error e) := by
  have hbounds : ∀ d, c.compile context = .ok d →
      Token.totalBytes c.tokens ≤ 8 ∧ (c.tokens.filterMap Token.varying?).length ≤ 1 := by
    intro d h
    obtain ⟨hbytes, hle, hvarying⟩ := immediate_of_compile h
    exact ⟨by omega, hvarying ▸ Option.length_toList_le⟩
  refine ⟨fun d h => ?_, fun before t after a _ hrun => ?_, fun hmany => ?_⟩
  · obtain ⟨hbytes, hle, hvarying⟩ := immediate_of_compile h
    refine ⟨hbytes, hle, (hbounds d h).2, ?_,
      fun hvalue t => isImmediate_eq_false_of_compile h hvalue⟩
    rw [← hvarying, Option.head?_toList]
  · have hle := (immediate_of_start hrun).2.1
    have ht := t.immediateBytes_le
    have hsize : UInt8.size = 256 := rfl
    omega
  · cases h : c.compile context with
    | error e => exact ⟨e, rfl⟩
    | ok d =>
      have hb := hbounds d h
      omega

theorem compile_immediates_each :
    (∃ d, compile ⟨[.byte 0xC7, .modRMReg 0, .iwd, .ib], none⟩ .default = .ok d ∧
      d.fields.immediate.fixedBytes.toNat = 1 ∧
      d.fields.immediate.varying = some .wordOrDword) ∧
    (∃ d, compile ⟨[.byte 0xD5, .byte 0x0A], none⟩ .default = .ok d ∧
      d.fields.opcodeImmediate ≠ none ∧ d.fields.immediate.fixedBytes.toNat = 1 ∧
      Token.isImmediate (.byte 0x0A) = false) ∧
    ∃ e, compile ⟨[.byte 0xE8, .rel, .iwd], none⟩ .default = .error e := by
  refine ⟨?_, ?_, ?_⟩
  · obtain ⟨d, h, hown⟩ : ∃ d, compile ⟨[.byte 0xC7, .modRMReg 0, .iwd, .ib], none⟩ .default =
        .ok d ∧ d.fields.ownBytes = 0 := ⟨_, rfl, rfl⟩
    obtain ⟨hbytes, -, -, hvarying, -⟩ := (compile_immediates _ _).1 d h
    exact ⟨d, h, hbytes.trans (by rw [hown]; rfl), hvarying⟩
  · obtain ⟨d, h, hvalue, hown⟩ : ∃ d, compile ⟨[.byte 0xD5, .byte 0x0A], none⟩ .default =
        .ok d ∧ d.fields.opcodeImmediate ≠ none ∧ d.fields.ownBytes = 1 :=
      ⟨_, rfl, by decide, rfl⟩
    obtain ⟨hbytes, -, -, -, hnone⟩ := (compile_immediates _ _).1 d h
    exact ⟨d, h, hvalue, hbytes.trans (by rw [hown]; rfl), hnone hvalue _ (by decide)⟩
  · exact (compile_immediates _ _).2.2 (.inr (by decide))

end Code
end X86Encoding
