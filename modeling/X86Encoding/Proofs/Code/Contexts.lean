import X86Encoding.Opcode.Matching
import X86Encoding.Proofs.Byte
import X86Encoding.Proofs.Code.Precedence

/-!
What the context of a code string decides. No step looks at the form or at the main byte of an
assembly, so a run that sets others goes the same way. The kind of the operand only narrows the
form of a digit, to memory or to a register: these two share out what the open form admits. The
condition only adds its code to the main byte.
-/

set_option autoImplicit false

namespace X86Encoding

namespace Assembly

/-! ## Another form and another main byte -/

variable {context context' : Code.Context} {a : Assembly}
  {f : AddressingForm → AddressingForm} {m : UInt8 → UInt8}

def reshape (f : AddressingForm → AddressingForm) (m : UInt8 → UInt8) (a : Assembly) : Assembly :=
  { a with fields.form := f a.fields.form, fields.mainByte := m a.fields.mainByte }

@[simp] theorem setMode_reshape (x64 : Bool) :
    (a.reshape f m).setMode x64 = (a.setMode x64).map (reshape f m) := by
  rw [setMode, setMode, apply_ite (Except.map _)]
  rfl

@[simp] theorem setSimd_reshape (p : SimdPrefix) :
    (a.reshape f m).setSimd p = (a.setSimd p).map (reshape f m) := by
  rw [setSimd, setSimd, apply_ite (Except.map _), apply_ite (Except.map _)]
  rfl

@[simp] theorem setMap_reshape (map : OpcodeMap) :
    (a.reshape f m).setMap map = (a.setMap map).map (reshape f m) := by
  rw [setMap, setMap, apply_ite (Except.map _)]
  rfl

theorem setForm_reshape {form form' : AddressingForm} (h : f form = form') :
    (a.reshape f m).setForm form' = (a.setForm form).map (reshape f m) := by
  rw [setForm, setForm, apply_ite (Except.map _), apply_ite (Except.map _), ← h]
  rfl

@[simp] theorem addImmediate_reshape (n : UInt8) :
    (a.reshape f m).addImmediate n = (a.addImmediate n).map (reshape f m) := by
  rw [addImmediate, addImmediate, apply_ite (Except.map _)]
  rfl

@[simp] theorem setVarying_reshape (v : VariableImmediate) :
    (a.reshape f m).setVarying v = (a.setVarying v).map (reshape f m) := by
  rw [setVarying, setVarying, apply_ite (Except.map _)]
  rfl

/-- A step reads the kind for a digit only, and the condition for a condition byte only. -/
theorem add_congr {t : Token}
    (hkind : context'.rmKind = context.rmKind ∨ ∀ reg, t ≠ .modRMReg reg)
    (hcondition : context'.condition = context.condition ∨ ∀ b, t ≠ .bytePlusCondition b) :
    a.add context' t = a.add context t := by
  cases t with
  | modRMReg reg =>
    have hsame := hkind.resolve_right fun h => h reg rfl
    rw [add, add, hsame]
  | bytePlusCondition b =>
    have hsame := hcondition.resolve_right fun h => h b rfl
    rw [add, add, hsame]
  | marker m => cases m <;> rfl
  | _ => rfl

/-- What keeps the steps from telling the difference: only the form of a digit is replaced, by the
one that the other context sets, and a main byte that is still to come stays as it is. -/
structure Reshapes (context context' : Code.Context) (f : AddressingForm → AddressingForm)
    (m : UInt8 → UInt8) (a : Assembly) : Prop where
  digit : ∀ reg, f (regForm context.rmKind reg) = regForm context'.rmKind reg
  other : ∀ form, (∀ reg, form ≠ .regAnyRM reg) → f form = form
  mainByte : a.mainByteSeen = false → m = id ∧ context'.condition = context.condition

namespace Reshapes

variable (h : Reshapes context context' f m a)
include h

theorem addByte (b : UInt8) : (a.reshape f m).addByte b = (a.addByte b).map (reshape f m) := by
  have hreshape : (a.reshape f m).mainByteSeen = a.mainByteSeen := rfl
  rw [Assembly.addByte, Assembly.addByte, hreshape]
  cases hseen : a.mainByteSeen with
  | false =>
    -- a lead byte is told by the kind and the map, which are the same
    obtain ⟨rfl, -⟩ := h.mainByte hseen
    have hlead : (a.reshape f id).leadByte? b = a.leadByte? b := rfl
    simp only [Bool.not_false, if_true, hlead]
    rcases a.leadByte? b with _ | p | map
    · rfl
    · exact setSimd_reshape p
    · exact setMap_reshape map
  | true =>
    simp only [Bool.not_true, Bool.false_eq_true, if_false, apply_ite (Except.map _),
      ← setForm_reshape (a := a) (m := m) (h.other (.value b) (by simp)),
      ← addImmediate_reshape]
    rfl

theorem addRegisterByte (b : UInt8) :
    (a.reshape f m).addRegisterByte b = (a.addRegisterByte b).map (reshape f m) := by
  have hreshape : (a.reshape f m).mainByteSeen = a.mainByteSeen := rfl
  rw [Assembly.addRegisterByte, Assembly.addRegisterByte, hreshape]
  cases hseen : a.mainByteSeen with
  | false =>
    obtain ⟨rfl, -⟩ := h.mainByte hseen
    have hform := h.other .mainByteReg (by simp)
    simp only [Bool.not_false, if_true, Except.map, reshape, setMainByte, hform, id]
  | true =>
    simp only [Bool.not_true, Bool.false_eq_true, if_false, apply_ite (Except.map _),
      ← setForm_reshape (a := a) (m := m) (h.other (.regDirectRM (b >>> 3 &&& 7)) (by simp))]
    rfl

theorem addConditionByte (b : UInt8) :
    (a.reshape f m).addConditionByte context'.condition b =
      (a.addConditionByte context.condition b).map (reshape f m) := by
  have hreshape : (a.reshape f m).mainByteSeen = a.mainByteSeen := rfl
  unfold Assembly.addConditionByte
  rw [hreshape, apply_ite (Except.map _)]
  cases hseen : a.mainByteSeen with
  | false =>
    obtain ⟨rfl, hcondition⟩ := h.mainByte hseen
    rw [hcondition]
    cases context.condition <;> rfl
  | true => rfl

theorem add (t : Token) :
    (a.reshape f m).add context' t = (a.add context t).map (reshape f m) := by
  cases t with
  | byte b => exact h.addByte b
  | bytePlusRegister b => exact h.addRegisterByte b
  | bytePlusCondition b => exact h.addConditionByte b
  | modRMReg reg => exact setForm_reshape (h.digit reg)
  | modRM => exact setForm_reshape (h.other .any (by simp))
  | vex =>
    rw [Assembly.add, Assembly.add, apply_ite (Except.map _)]
    rfl
  | iwd | iwdq | rel => exact setVarying_reshape _
  | is4 | ib | ibSigned | ibUnsigned | iw | id | idSigned | iq | rel8 | seg =>
    exact addImmediate_reshape _
  | o16 | o32 | rexW | noRexW | a32 | operandDefault | addressDefault => rfl
  | o64 => exact setMode_reshape (a := a.setOperandSize .promotion) true
  | a16 => exact setMode_reshape (a := a.setAddressSize .a16) false
  | a64 => exact setMode_reshape (a := a.setAddressSize .a64) true
  | o64NoW | x64 | ia32 => exact setMode_reshape _
  | noSimd => exact setSimd_reshape _
  | escape0F38 | escape0F3A => exact setMap_reshape _
  | marker mk =>
    cases mk with
    | f2i | f3i => exact setSimd_reshape _
    | _ => rfl

end Reshapes

end Assembly

/-! ## The kind of the operand -/

namespace AddressingForm

def recast (kind : Option OperandKind) : AddressingForm → AddressingForm
  | .regAnyRM reg => Assembly.regForm kind reg
  | form => form

theorem recast_of_ne {kind : Option OperandKind} {form : AddressingForm}
    (h : ∀ reg, form ≠ .regAnyRM reg) : form.recast kind = form := by
  cases form with
  | regAnyRM reg => exact absurd rfl (h reg)
  | _ => rfl

theorem regForm_eq_regAnyRM {kind : Option OperandKind} (hmemory : kind ≠ some .memory)
    (hregister : kind ≠ some .register) (reg : UInt8) :
    Assembly.regForm kind reg = .regAnyRM reg := by
  unfold Assembly.regForm
  split
  · exact absurd rfl hmemory
  · exact absurd rfl hregister
  · rfl

theorem recast_eq_self {kind : Option OperandKind} (hmemory : kind ≠ some .memory)
    (hregister : kind ≠ some .register) (form : AddressingForm) : form.recast kind = form := by
  cases form with
  | regAnyRM reg => exact regForm_eq_regAnyRM hmemory hregister reg
  | _ => rfl

@[simp] theorem mainByteMask_recast (kind : Option OperandKind) (form : AddressingForm) :
    (form.recast kind).mainByteMask = form.mainByteMask := by
  cases form with
  | regAnyRM reg =>
    rcases kind with _ | _ | _ | _ | _ | _ <;> rfl
  | _ => rfl

theorem admits_regAnyRM_iff (reg : UInt8) (m : Option ModRM) :
    (regAnyRM reg).admits m = true ↔
      (regMemoryRM reg).admits m = true ∨ (regDirectRM reg).admits m = true := by
  cases m with
  | none => simp [admits]
  | some m => cases hdirect : m.isDirect <;> simp [admits, hdirect]

theorem not_admits_memory_and_direct (reg : UInt8) (m : Option ModRM) :
    ¬((regMemoryRM reg).admits m = true ∧ (regDirectRM reg).admits m = true) := by
  cases m with
  | none => simp [admits]
  | some m => cases hdirect : m.isDirect <;> simp [admits, hdirect]

end AddressingForm

namespace OpcodeFields

def recast (f : OpcodeFields) (kind : Option OperandKind) : OpcodeFields :=
  { f with form := f.form.recast kind }

theorem recast_eq_self (f : OpcodeFields) {kind : Option OperandKind}
    (hmemory : kind ≠ some .memory) (hregister : kind ≠ some .register) : f.recast kind = f := by
  rw [recast, AddressingForm.recast_eq_self hmemory hregister]

@[simp] theorem recast_none (f : OpcodeFields) : f.recast none = f :=
  f.recast_eq_self (by decide) (by decide)

theorem fault?_recast (f : OpcodeFields) (kind : Option OperandKind) :
    (f.recast kind).fault? = f.fault? := by
  have hrules : (f.recast kind).rules = f.rules := by
    cases hform : f.form with
    | regAnyRM reg =>
      have hrecast : (f.recast kind).form = Assembly.regForm kind reg := by
        rw [recast, hform, AddressingForm.recast]
      unfold rules
      rw [hrecast, hform]
      unfold Assembly.regForm
      split <;> rfl
    | _ =>
      have hrecast : f.recast kind = f := by
        rw [recast, AddressingForm.recast_of_ne (by simp [hform])]
      rw [hrecast]
  rw [fault?, fault?, hrules]

end OpcodeFields

namespace OpcodeDescriptor

variable {any memory register d : OpcodeDescriptor} (s : PrefixState) (mainByte : UInt8)
  (modRM : Option ModRM) (imm8 : Option UInt8)

theorem accepts_of_recast {kind : Option OperandKind} (h : d.fields = any.fields.recast kind) :
    d.accepts s mainByte modRM imm8 = (any.acceptsMainByte s mainByte &&
      (any.fields.form.recast kind).admits modRM &&
      imm8.isSome == (any.fields.immediate.fixed? == some 1) &&
      any.fields.opcodeImmediate.all (imm8 == some ·)) := by
  simp only [accepts, acceptsMainByte, validIn, mainByteMask, h, OpcodeFields.recast,
    AddressingForm.mainByteMask_recast]

/-- Memory and registers share out what a digit with any operand accepts. -/
theorem accepts_digit {reg : UInt8} (hform : any.fields.form = .regAnyRM reg)
    (hmemory : memory.fields = any.fields.recast (some .memory))
    (hregister : register.fields = any.fields.recast (some .register)) :
    (any.accepts s mainByte modRM imm8 = true ↔
      memory.accepts s mainByte modRM imm8 = true ∨
        register.accepts s mainByte modRM imm8 = true) ∧
    ¬(memory.accepts s mainByte modRM imm8 = true ∧
      register.accepts s mainByte modRM imm8 = true) := by
  rw [accepts_of_recast _ _ _ _ hmemory, accepts_of_recast _ _ _ _ hregister, accepts, hform]
  have hshare := AddressingForm.admits_regAnyRM_iff reg modRM
  have hapart := AddressingForm.not_admits_memory_and_direct reg modRM
  simp only [AddressingForm.recast, Assembly.regForm, Bool.and_eq_true]
  grind

end OpcodeDescriptor

namespace Token

def digit? : Token → Option UInt8
  | .modRMReg reg => some reg
  | _ => none

end Token

namespace Assembly

variable {context : Code.Context} {a a' : Assembly}

structure HasForm (form : AddressingForm) (a : Assembly) : Prop where
  mainByteSeen : a.mainByteSeen = true
  modRMSeen : a.modRMSeen = true
  form_eq : a.fields.form = form

theorem HasForm.add {form : AddressingForm} {t : Token} (ha : a.HasForm form)
    (h : a.add context t = .ok a') : a'.HasForm form := by
  obtain ⟨hmain, hmodRM, hform⟩ := ha
  cases change_of_add h with
  | mainByte b hfree | mainRegister b hfree | mainCondition b c hfree =>
    cases hmain.symm.trans hfree
  | form form' _ hfree => cases hmodRM.symm.trans hfree
  | _ => exact ⟨hmain, hmodRM, hform⟩

theorem writes_digit (hkind : context.rmKind = none) :
    Writes context Token.digit? fun reg a => a.HasForm (.regAnyRM reg) where
  write {a a' t reg} h ht := by
    cases t <;> cases ht
    obtain ⟨⟨hmain, -⟩, rfl⟩ := setForm_eq_ok.1 h
    exact ⟨hmain, rfl, by rw [hkind]; rfl⟩
  skip h _ ha := ha.add h

theorem reshapes_recast (context : Code.Context) (kind : Option OperandKind) (a : Assembly) :
    Reshapes { context with rmKind := none } { context with rmKind := kind }
      (AddressingForm.recast kind) id a where
  digit _ := rfl
  other _ := AddressingForm.recast_of_ne
  mainByte _ := ⟨rfl, rfl⟩

end Assembly

namespace Code

variable (c : Code) (context : Context)

/-- One run tells what the code string means for an operand of every kind. -/
theorem compile_rmKind_eq (kind : Option OperandKind) :
    c.compile { context with rmKind := kind } =
      match (Assembly.start context c.vex).addAll { context with rmKind := none } c.tokens with
      | .error e => .error (c.fault e)
      | .ok a =>
        if a.mainByteSeen then OpcodeDescriptor.make (a.fields.recast kind)
        else .error (.format .noMainByte c.text) := by
  have hstart : Assembly.start { context with rmKind := kind } c.vex =
      (Assembly.start context c.vex).reshape (AddressingForm.recast kind) id := by
    cases c.vex <;> rfl
  rw [compile, hstart, Assembly.addAll_map
    (fun a _ t _ => (Assembly.reshapes_recast context kind a).add t) (fun _ _ _ _ _ => trivial)
    trivial]
  cases (Assembly.start context c.vex).addAll { context with rmKind := none } c.tokens <;> rfl

theorem compile_rmKind_of_open {kind : Option OperandKind} (hmemory : kind ≠ some .memory)
    (hregister : kind ≠ some .register) :
    c.compile { context with rmKind := kind } = c.compile { context with rmKind := none } := by
  simp only [compile_rmKind_eq, OpcodeFields.recast_eq_self _ hmemory hregister,
    OpcodeFields.recast_none]

theorem compile_rmKind_cases :
    (∃ e, ∀ kind, c.compile { context with rmKind := kind } = .error e) ∨
    ∃ f : OpcodeFields, (∀ reg, .modRMReg reg ∈ c.tokens → f.form = .regAnyRM reg) ∧
      ∀ kind, ∃ d, c.compile { context with rmKind := kind } = .ok d ∧
        d.fields = f.recast kind := by
  cases hrun : (Assembly.start context c.vex).addAll { context with rmKind := none } c.tokens with
  | error e =>
    simp only [compile_rmKind_eq, hrun]
    exact .inl ⟨_, fun _ => rfl⟩
  | ok a =>
    simp only [compile_rmKind_eq, hrun]
    cases a.mainByteSeen with
    | false => exact .inl ⟨_, fun _ => rfl⟩
    | true =>
      cases hfault : a.fields.fault? with
      | some e =>
        exact .inl ⟨e, fun kind => Checked.make_of_fault_eq_some
          ((a.fields.fault?_recast kind).trans hfault)⟩
      | none =>
        refine .inr ⟨a.fields, fun reg hreg => ?_, fun kind => ?_⟩
        · exact ((Assembly.writes_digit rfl).all (fun _ _ _ _ ha hadd => ha.add hadd) hrun hreg
            rfl).form_eq
        · exact ⟨_, Checked.make_of_fault
            ((a.fields.fault?_recast kind).trans hfault), rfl⟩

/-- A row that is written for memory and one that is written for a register share out what the row
for either accepts: whether it compiles does not depend on the kind of the operand, and neither
does anything else unless there is a digit. -/
theorem compile_rmKind :
    (∀ kind kind', (∃ d, c.compile { context with rmKind := kind } = .ok d) ↔
      ∃ d, c.compile { context with rmKind := kind' } = .ok d) ∧
    ((∀ reg, .modRMReg reg ∉ c.tokens) → ∀ kind kind',
      c.compile { context with rmKind := kind } = c.compile { context with rmKind := kind' }) ∧
    ∀ reg, .modRMReg reg ∈ c.tokens → ∀ kind d, c.compile { context with rmKind := kind } = .ok d →
      ∃ any memory register : OpcodeDescriptor,
        (∀ kind, kind ≠ some .memory → kind ≠ some .register →
          c.compile { context with rmKind := kind } = .ok any) ∧
        c.compile { context with rmKind := some .memory } = .ok memory ∧
        c.compile { context with rmKind := some .register } = .ok register ∧
        ∀ s mainByte modRM imm8,
          (any.accepts s mainByte modRM imm8 = true ↔
            memory.accepts s mainByte modRM imm8 = true ∨
              register.accepts s mainByte modRM imm8 = true) ∧
          ¬(memory.accepts s mainByte modRM imm8 = true ∧
            register.accepts s mainByte modRM imm8 = true) := by
  refine ⟨fun kind kind' => ?_, fun hnone kind kind' => ?_, fun reg hreg kind d hd => ?_⟩
  · obtain ⟨e, he⟩ | ⟨f, -, hf⟩ := compile_rmKind_cases c context
    · simp only [he, reduceCtorEq]
    · obtain ⟨d, hd, -⟩ := hf kind
      obtain ⟨d', hd', -⟩ := hf kind'
      exact ⟨fun _ => ⟨d', hd'⟩, fun _ => ⟨d, hd⟩⟩
  · have hstep : ∀ a : Assembly, ∀ t ∈ c.tokens,
        a.add { context with rmKind := kind } t = a.add { context with rmKind := kind' } t :=
      fun a t ht => Assembly.add_congr (.inr fun reg h => hnone reg (h ▸ ht)) (.inl rfl)
    rw [compile, compile, Assembly.addAll_congr hstep]
    rfl
  · obtain ⟨e, he⟩ | ⟨f, hform, hf⟩ := compile_rmKind_cases c context
    · cases (he kind).symm.trans hd
    · obtain ⟨any, hany, hanyFields⟩ := hf none
      obtain ⟨memory, hmemory, hmemoryFields⟩ := hf (some .memory)
      obtain ⟨register, hregister, hregisterFields⟩ := hf (some .register)
      rw [f.recast_none] at hanyFields
      subst hanyFields
      exact ⟨any, memory, register,
        fun kind' hm hr => (c.compile_rmKind_of_open context hm hr).trans hany, hmemory, hregister,
        fun s mainByte modRM imm8 => OpcodeDescriptor.accepts_digit s mainByte modRM imm8
          (hform reg hreg) hmemoryFields hregisterFields⟩

theorem compile_rmKind_digit :
    ∃ any memory register : OpcodeDescriptor,
      compile ⟨[.byte 0xF6, .modRMReg 3], none⟩ ⟨none, some .other, none⟩ = .ok any ∧
      compile ⟨[.byte 0xF6, .modRMReg 3], none⟩ ⟨none, some .memory, none⟩ = .ok memory ∧
      compile ⟨[.byte 0xF6, .modRMReg 3], none⟩ ⟨none, some .register, none⟩ = .ok register ∧
      memory.accepts (.initial .x64) 0xF6 (some (.ofByte 0x18)) none = true ∧
      register.accepts (.initial .x64) 0xF6 (some (.ofByte 0xD8)) none = true ∧
      any.accepts (.initial .x64) 0xF6 (some (.ofByte 0x18)) none = true ∧
      any.accepts (.initial .x64) 0xF6 (some (.ofByte 0xD8)) none = true := by
  obtain ⟨any, memory, register, hany, hmemory, hregister, haccepts⟩ :=
    (compile_rmKind ⟨[.byte 0xF6, .modRMReg 3], none⟩ .default).2.2 3 (by decide) none _ rfl
  have hm : memory.accepts (.initial .x64) 0xF6 (some (.ofByte 0x18)) none = true := by
    cases hmemory
    decide
  have hr : register.accepts (.initial .x64) 0xF6 (some (.ofByte 0xD8)) none = true := by
    cases hregister
    decide
  exact ⟨any, memory, register, hany (some .other) nofun nofun, hmemory, hregister, hm, hr,
    (haccepts _ _ _ _).1.2 (.inl hm), (haccepts _ _ _ _).1.2 (.inr hr)⟩

end Code

/-! ## The condition -/

theorem or_conditionCode {b : UInt8} (h : b &&& 0x0F = 0) (c : Condition) :
    b ||| c.code = b + c.code := by
  have hall : b &&& 0x0F = 0 → b ||| c.code = b + c.code := by
    refine byteCases b b.toNat_lt ?_
    cases c <;> decide +kernel
  exact hall h

namespace OpcodeFields

theorem fault?_mainByte {f : OpcodeFields} (h : f.form ≠ .mainByteReg) (b : UInt8) :
    { f with mainByte := b }.fault? = f.fault? := by
  have hrules : { f with mainByte := b }.rules = f.rules := by
    have hform : (f.form != .mainByteReg) = true := bne_iff_ne.2 h
    simp only [rules, hform, Bool.true_or]
    rfl
  rw [fault?, fault?, hrules]

end OpcodeFields

theorem OpcodeDescriptor.mainByte_eq_of_accepts {d : OpcodeDescriptor} {s : PrefixState}
    {mainByte : UInt8} {modRM : Option ModRM} {imm8 : Option UInt8}
    (hform : d.fields.form ≠ .mainByteReg) (h : d.accepts s mainByte modRM imm8 = true) :
    mainByte = d.fields.mainByte := by
  have hmask : d.mainByteMask = -1 := AddressingForm.mainByteMask_of_ne hform
  simp only [accepts, acceptsMainByte, Bool.and_eq_true, beq_iff_eq] at h
  rw [← h.1.1.1.2, hmask, UInt8.and_neg_one]

namespace Assembly

variable {context : Code.Context} {a a' : Assembly}

def FormFollows (a : Assembly) : Prop := a.mainByteSeen = false → a.fields.form = .noModRM

theorem formFollows_start (context : Code.Context) (vex : Option VexDescriptor) :
    (start context vex).FormFollows := by
  cases vex <;> exact fun _ => rfl

theorem FormFollows.add {t : Token} (ha : a.FormFollows) (h : a.add context t = .ok a') :
    a'.FormFollows := by
  intro hmain
  cases change_of_add h with
  | mainByte | mainRegister | mainCondition => cases hmain
  | form form hseen => cases hseen.symm.trans hmain
  | _ => exact ha hmain

structure HasPlainMain (a : Assembly) : Prop where
  mainByteSeen : a.mainByteSeen = true
  form_ne : a.fields.form ≠ .mainByteReg

theorem HasPlainMain.add {t : Token} (ha : a.HasPlainMain) (h : a.add context t = .ok a') :
    a'.HasPlainMain := by
  obtain ⟨hmain, hform⟩ := ha
  cases change_of_add h with
  | mainByte b hfree | mainRegister b hfree | mainCondition b c hfree =>
    cases hmain.symm.trans hfree
  | form form' _ _ hmodRM =>
    refine ⟨hmain, ?_⟩
    rintro rfl
    cases hmodRM
  | _ => exact ⟨hmain, hform⟩

theorem reshapes_condition (context : Code.Context) (condition : Option Condition)
    (m : UInt8 → UInt8) (ha : a.HasPlainMain) :
    Reshapes { context with condition := none } { context with condition := condition } id m a where
  digit _ := rfl
  other _ _ := rfl
  mainByte hnot := by cases ha.mainByteSeen.symm.trans hnot

theorem addAll_conditionByte (context : Code.Context) (ha : a.FormFollows) (b : UInt8)
    (ts : List Token) :
    (∃ e, ∀ c : Condition,
      a.addAll { context with condition := some c } (.bytePlusCondition b :: ts) = .error e) ∨
    b &&& 0x0F = 0 ∧ ∃ a' : Assembly, a'.HasPlainMain ∧ ∀ c : Condition,
      a.addAll { context with condition := some c } (.bytePlusCondition b :: ts) =
        .ok (a'.reshape id fun _ => b ||| c.code) := by
  by_cases hplace : (a.mainByteSeen || b &&& 0x0F != 0) = true
  · refine .inl ⟨.text .misplacedConditionCode, fun c => ?_⟩
    simp only [addAll, add, addConditionByte, if_pos hplace]
    rfl
  · have hfree : a.mainByteSeen = false ∧ b &&& 0x0F = 0 := by simpa using hplace
    -- the run of all conditions, with a main byte to which no code is added yet
    have hplain : (a.setMainByte b).HasPlainMain :=
      ⟨rfl, by rw [setMainByte, ha hfree.1]; decide⟩
    have hrun : ∀ c : Condition,
        a.addAll { context with condition := some c } (.bytePlusCondition b :: ts) =
          ((a.setMainByte b).addAll { context with condition := none } ts).map
            (reshape id fun _ => b ||| c.code) := by
      intro c
      rw [← addAll_map (fun a ha t _ => (reshapes_condition context (some c)
        (fun _ => b ||| c.code) ha).add t) (fun _ _ _ ha hadd => ha.add hadd) hplain]
      simp only [addAll, add, addConditionByte, if_neg hplace]
      rfl
    cases hbase : (a.setMainByte b).addAll { context with condition := none } ts with
    | error e => exact .inl ⟨e, fun c => by rw [hrun, hbase]; rfl⟩
    | ok a' =>
      exact .inr ⟨hfree.2, a', addAll_preserves (fun _ _ _ ha hadd => ha.add hadd) hplain hbase,
        fun c => by rw [hrun, hbase]; rfl⟩

theorem addAll_condition (context : Code.Context) (ha : a.FormFollows) {ts : List Token}
    (hmem : ∃ b, .bytePlusCondition b ∈ ts) :
    (∃ e, ∀ c : Condition, a.addAll { context with condition := some c } ts = .error e) ∨
    ∃ b : UInt8, b &&& 0x0F = 0 ∧ ∃ a' : Assembly, a'.HasPlainMain ∧ ∀ c : Condition,
      a.addAll { context with condition := some c } ts =
        .ok (a'.reshape id fun _ => b ||| c.code) := by
  induction ts generalizing a with
  | nil =>
    obtain ⟨b, hb⟩ := hmem
    cases hb
  | cons t ts ih =>
    by_cases ht : ∃ b, t = .bytePlusCondition b
    · obtain ⟨b, rfl⟩ := ht
      obtain herror | ⟨hb, hrun⟩ := addAll_conditionByte context ha b ts
      · exact .inl herror
      · exact .inr ⟨b, hb, hrun⟩
    · have hne : ∀ b, t ≠ .bytePlusCondition b := fun b h => ht ⟨b, h⟩
      have hsame : ∀ c : Condition, a.add { context with condition := some c } t =
          a.add { context with condition := none } t := fun c => add_congr (.inl rfl) (.inr hne)
      obtain ⟨b, hb⟩ := hmem
      have hrest : ∃ b, .bytePlusCondition b ∈ ts :=
        ⟨b, (List.mem_cons.1 hb).resolve_left fun h => hne b h.symm⟩
      cases hadd : a.add { context with condition := none } t with
      | error e =>
        refine .inl ⟨e, fun c => ?_⟩
        rw [addAll, hsame, hadd]
      | ok a₁ =>
        have hstep : ∀ c : Condition, a.addAll { context with condition := some c } (t :: ts) =
            a₁.addAll { context with condition := some c } ts := by
          intro c
          rw [addAll, hsame, hadd]
        simp only [hstep]
        exact ih (ha.add hadd) hrest

end Assembly

namespace Code

variable {c : Code}

/-- With a condition byte compiling fails for all conditions in the same way, or gives descriptors
that differ in the low bits of the main byte only. -/
theorem compile_condition_cases (context : Context) (hmem : ∃ b, .bytePlusCondition b ∈ c.tokens) :
    (∃ e, ∀ cc : Condition, c.compile { context with condition := some cc } = .error e) ∨
    ∃ f : OpcodeFields, f.mainByte &&& 0x0F = 0 ∧ f.form ≠ .mainByteReg ∧
      ∀ cc : Condition, ∃ d, c.compile { context with condition := some cc } = .ok d ∧
        d.fields = { f with mainByte := f.mainByte + cc.code } := by
  have hstart : ∀ cc, Assembly.start { context with condition := some cc } c.vex =
      Assembly.start context c.vex := fun _ => rfl
  simp only [compile, hstart]
  obtain ⟨e, he⟩ | ⟨b, hb, a, hplain, hrun⟩ :=
    Assembly.addAll_condition context (Assembly.formFollows_start context c.vex) hmem
  · exact .inl ⟨c.fault e, fun cc => by rw [he]⟩
  · have hseen : ∀ cc : Condition,
        (a.reshape id fun _ => b ||| cc.code).mainByteSeen = true := fun _ => hplain.mainByteSeen
    simp only [hrun, hseen, if_true]
    cases hfault : a.fields.fault? with
    | some e =>
      exact .inl ⟨e, fun cc => Checked.make_of_fault_eq_some
        ((OpcodeFields.fault?_mainByte hplain.form_ne _).trans hfault)⟩
    | none =>
      refine .inr ⟨{ a.fields with mainByte := b }, hb, hplain.form_ne, fun cc => ?_⟩
      refine ⟨_, Checked.make_of_fault
        ((OpcodeFields.fault?_mainByte hplain.form_ne _).trans hfault), ?_⟩
      rw [← or_conditionCode hb cc]

end Code
end X86Encoding
