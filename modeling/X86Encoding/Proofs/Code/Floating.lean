import X86Encoding.Proofs.Code.Accounts
import X86Encoding.Proofs.Code.Contexts

/-!
Tokens that may stand anywhere. A token that is about the mode or the immediates only, or about
nothing, has no part in a run without accounts, and its place has no part in the sums. For the same
reason the mode can as well be given by the context: this only leaves out the other one.
-/

set_option autoImplicit false

namespace X86Encoding

namespace Token

def isIdle : Token → Bool
  | .operandDefault | .addressDefault => true
  | .marker m => m != .f2i && m != .f3i
  | _ => false

/-- The token is about the mode or the immediates only, or idle. -/
def isFloating (t : Token) : Bool :=
  t.isImmediate || t.isIdle || t == .x64 || t == .ia32 || t == .o64NoW

end Token

namespace Assembly

variable {context : Code.Context} {a : Assembly} {t : Token}

theorem add_of_isIdle (ht : t.isIdle = true) : a.add context t = .ok a := by
  cases t with
  | operandDefault | addressDefault => rfl
  | marker m => cases m <;> first | rfl | cases ht
  | _ => cases ht

theorem add_bare_of_isFloating (context : Code.Context) (a : Assembly)
    (ht : t.isFloating = true) : ∃ x i, a.bare.add context t = .ok (a.charge x i) := by
  simp only [Token.isFloating, Bool.or_eq_true, beq_iff_eq] at ht
  rcases ht with (((himmediate | hidle) | rfl) | rfl) | rfl
  · have hroom : 0 + t.immediateBytes.toNat ≤ 8 := by
      rw [Nat.zero_add]
      exact t.immediateBytes_le
    cases t with
    | iwd | rel | iwdq => exact ⟨none, _, setVarying_eq_ok.2 ⟨rfl, rfl⟩⟩
    | is4 | ib | ibSigned | ibUnsigned | iw | id | idSigned | iq | rel8 | seg =>
      exact ⟨none, _, addImmediate_eq_ok.2 ⟨hroom, rfl⟩⟩
    | _ => cases himmediate
  · exact ⟨none, .zero, add_of_isIdle hidle⟩
  · exact ⟨some true, .zero, rfl⟩
  · exact ⟨some false, .zero, rfl⟩
  · exact ⟨some true, .zero, rfl⟩

theorem addAllBare_insert (context : Code.Context) (a : Assembly) (ht : t.isFloating = true)
    (before after : List Token) :
    a.addAllBare context (before ++ t :: after) = a.addAllBare context (before ++ after) := by
  induction before generalizing a with
  | nil =>
    obtain ⟨x, i, hadd⟩ := add_bare_of_isFloating context a ht
    simp only [List.nil_append, addAllBare, hadd, addAllBare_charge]
  | cons u before ih =>
    simp only [List.cons_append, addAllBare]
    cases a.bare.add context u with
    | error e => rfl
    | ok b => exact ih b

end Assembly

theorem toOption_congr {ε α : Type} {x y : Except ε α} (h : ∀ v, x = .ok v ↔ y = .ok v) :
    x.toOption = y.toOption := by
  cases x with
  | ok v => rw [(h v).1 rfl]
  | error e =>
    cases y with
    | ok v => cases (h v).2 rfl
    | error e' => rfl

namespace Code

variable {c : Code} {context : Context} {d : OpcodeDescriptor}

/-- Code strings whose tokens ask for the same and go the same way without accounts. -/
theorem compile_of_perm {ts us : List Token} {vex : Option VexDescriptor}
    (h : compile ⟨ts, vex⟩ context = .ok d) (hperm : ts.Perm us)
    (hbare : (Assembly.start context vex).addAllBare context us =
      (Assembly.start context vex).addAllBare context ts) :
    compile ⟨us, vex⟩ context = .ok d := by
  obtain ⟨a, hrun, hend⟩ := compile_eq_ok_iff.1 h
  exact compile_eq_ok_iff.2
    ⟨a, Assembly.addAll_of_perm hrun (fixedBytes_start_le context vex) hperm hbare, hend⟩

/-- A token that is about the mode or the immediates only, or idle, may stand in any place, and an
idle one may be left out: compiling succeeds as before, and gives the same descriptor. -/
theorem compile_move (context : Context) (vex : Option VexDescriptor) (t : Token)
    (before after before' after' : List Token) (hsame : before ++ after = before' ++ after') :
    (t.isFloating = true → (compile ⟨before ++ t :: after, vex⟩ context).toOption =
      (compile ⟨before' ++ t :: after', vex⟩ context).toOption) ∧
    (t.isIdle = true → (compile ⟨before ++ t :: after, vex⟩ context).toOption =
      (compile ⟨before ++ after, vex⟩ context).toOption) := by
  constructor
  · intro ht
    have hperm : (before ++ t :: after).Perm (before' ++ t :: after') := by
      refine List.perm_middle.trans (.trans ?_ List.perm_middle.symm)
      rw [hsame]
    have hbare : (Assembly.start context vex).addAllBare context (before ++ t :: after) =
        (Assembly.start context vex).addAllBare context (before' ++ t :: after') := by
      rw [Assembly.addAllBare_insert _ _ ht, Assembly.addAllBare_insert _ _ ht, hsame]
    exact toOption_congr fun d =>
      ⟨fun h => compile_of_perm h hperm hbare.symm, fun h => compile_of_perm h hperm.symm hbare⟩
  · intro ht
    have hrun : (Assembly.start context vex).addAll context (before ++ t :: after) =
        (Assembly.start context vex).addAll context (before ++ after) := by
      rw [Assembly.addAll_append_eq, Assembly.addAll_append_eq]
      congr 1
      funext a
      rw [Assembly.addAll, Assembly.add_of_isIdle ht]
    exact toOption_congr fun d => by rw [compile_eq_ok_iff, compile_eq_ok_iff, hrun]

theorem compile_move_enter :
    ∃ d, (compile ⟨[.byte 0xC8, .iw, .ib, .marker .hle], none⟩ .default).toOption = some d ∧
      (compile ⟨[.ib, .byte 0xC8, .iw, .marker .hle], none⟩ .default).toOption = some d ∧
      (compile ⟨[.byte 0xC8, .iw, .ib], none⟩ .default).toOption = some d := by
  obtain ⟨d, h⟩ : ∃ d, (compile ⟨[.byte 0xC8, .iw, .ib, .marker .hle], none⟩
      .default).toOption = some d := ⟨_, rfl⟩
  have hmoved := (compile_move .default none .ib [.byte 0xC8, .iw] [.marker .hle]
    [] [.byte 0xC8, .iw, .marker .hle] rfl).1 rfl
  have hdropped := (compile_move .default none (.marker .hle) [.byte 0xC8, .iw, .ib] []
    [.byte 0xC8, .iw, .ib] [] rfl).2 rfl
  exact ⟨d, h, hmoved ▸ h, hdropped ▸ h⟩

end Code

theorem OpcodeFields.x64_eq_of_ne {f : OpcodeFields} {m m' : Bool} (hm : f.x64 ≠ some !m)
    (hm' : f.x64 = some m') : m' = m := by
  cases m <;> cases m' <;> first | rfl | exact absurd hm' hm

namespace Assembly

variable {context : Code.Context} {a a' b : Assembly} {ts : List Token} {m : Bool}

theorem addAll_of_mode (h : a.addAll context ts = .ok a')
    (ha : a.fields.immediate.fixedBytes.toNat ≤ 8) (hm : a'.fields.x64 ≠ some !m) :
    (a.charge (some m) a.fields.immediate).addAll context ts =
      .ok (a'.charge (some m) a'.fields.immediate) := by
  have hbare := (addAllBare_charge (some m) a.fields.immediate).trans (addAllBare_of_addAll h ha)
  have hroom := affords_of_addAll h ha
  have hmode : ∀ t ∈ ts, ∀ m', t.x64? = some m' → m' = m := fun t ht m' hm' =>
    OpcodeFields.x64_eq_of_ne hm ((x64_of_addAll h m').2 (.inr ⟨t, ht, hm'⟩))
  obtain ⟨b, hb⟩ := addAll_of_addAllBare (a := a.charge (some m) a.fields.immediate) hbare
    { hroom with x64 := ⟨m, fun m' hm' => (Option.some.inj hm').symm, hmode⟩ }
  have hsame : b.bare = a'.bare := Except.ok.inj ((addAllBare_of_addAll hb ha).symm.trans hbare)
  rw [hb, charge_of_bare_eq hsame, (x64_of_addAll hb m).2 (.inl rfl),
    immediate_eq_of_perm h hb rfl rfl (.refl ts) hsame]

theorem x64_ne_of_addAll {i : ImmediateSize} (h : a.addAll context ts = .ok a')
    (hnone : a.fields.x64 = none) (hb : (a.charge (some m) i).addAll context ts = .ok b) :
    a'.fields.x64 ≠ some !m := by
  intro hm
  have hasked : ∃ t ∈ ts, t.x64? = some !m :=
    ((x64_of_addAll h _).1 hm).resolve_left (by rw [hnone]; simp)
  have hknown := (x64_of_addAll hb m).2 (.inl rfl)
  have hother := (x64_of_addAll hb !m).2 (.inr hasked)
  cases m <;> cases hknown.symm.trans hother

end Assembly

namespace OpcodeFields

theorem fault?_x64 {f : OpcodeFields} (h : f.fault? = none) {m : Bool} (hm : f.x64 ≠ some !m) :
    { f with x64 := some m }.fault? = none := by
  have hc := fault?_eq_none_iff.1 h
  have hmode : ∀ m', f.x64 = some m' → some m = some m' :=
    fun m' hm' => congrArg some (x64_eq_of_ne hm hm').symm
  exact fault?_eq_none_iff.2
    { hc with
      x64_of_a64 := fun ha => hmode _ (hc.x64_of_a64 ha)
      x64_of_a16 := fun ha => hmode _ (hc.x64_of_a16 ha)
      x64_of_promotion := fun hr hk => hmode _ (hc.x64_of_promotion hr hk) }

end OpcodeFields

namespace OpcodeDescriptor

theorem accepts_x64 {d e : OpcodeDescriptor} {m : Bool}
    (hfields : d.fields = { e.fields with x64 := some m }) (hm : e.fields.x64 ≠ some !m)
    (s : PrefixState) (mainByte : UInt8) (modRM : Option ModRM) (imm8 : Option UInt8) :
    d.accepts s mainByte modRM imm8 = true ↔
      e.accepts s mainByte modRM imm8 = true ∧ s.mode.isLong = m := by
  have hvalid : d.validIn s.mode = true ↔ e.validIn s.mode = true ∧ s.mode.isLong = m := by
    simp only [validIn, hfields]
    cases hx : e.fields.x64 with
    | none =>
      simp only [Option.all_some, Option.all_none, beq_iff_eq, true_and]
      exact eq_comm
    | some m' =>
      rw [OpcodeFields.x64_eq_of_ne hm hx]
      simp only [Option.all_some, beq_iff_eq]
      exact ⟨fun h => ⟨h, h.symm⟩, And.left⟩
  simp only [accepts, acceptsMainByte, Bool.and_eq_true, hvalid, mainByteMask, hfields]
  grind

end OpcodeDescriptor

namespace Code

variable {c : Code} {context : Context} {e : OpcodeDescriptor}

theorem addAll_longMode (c : Code) (context : Context) (longMode : Option Bool) :
    (Assembly.start { context with longMode := longMode } c.vex).addAll
        { context with longMode := longMode } c.tokens =
      ((Assembly.start { context with longMode := none } c.vex).charge longMode .zero).addAll
        { context with longMode := none } c.tokens := by
  have hstart : Assembly.start { context with longMode := longMode } c.vex =
      (Assembly.start { context with longMode := none } c.vex).charge longMode .zero := by
    cases c.vex <;> rfl
  rw [hstart]
  exact Assembly.addAll_congr fun a t _ => Assembly.add_congr (.inl rfl) (.inl rfl)

/-- A mode that is known beforehand only leaves out the other one. Compiling fails exactly when a
token asks for that, and otherwise gives the descriptor that it gives without, for this mode. -/
theorem compile_longMode (context : Context)
    (h : c.compile { context with longMode := none } = .ok e) (m : Bool) :
    ((∃ fault, c.compile { context with longMode := some m } = .error fault) ↔
      e.fields.x64 = some !m) ∧
    (e.fields.x64 ≠ some !m →
      ∃ d, c.compile { context with longMode := some m } = .ok d ∧
        d.fields = { e.fields with x64 := some m } ∧
        ∀ s mainByte modRM imm8, d.accepts s mainByte modRM imm8 = true ↔
          e.accepts s mainByte modRM imm8 = true ∧ s.mode.isLong = m) := by
  obtain ⟨a, hrun, hseen, hmake⟩ := compile_eq_ok_iff.1 h
  have hfields := Checked.fields_of_make hmake
  have hx64 : (Assembly.start { context with longMode := none } c.vex).fields.x64 = none := by
    cases c.vex <;> rfl
  have hcompiles : e.fields.x64 ≠ some !m →
      ∃ d, c.compile { context with longMode := some m } = .ok d ∧
        d.fields = { e.fields with x64 := some m } := by
    intro hm
    rw [hfields] at hm ⊢
    have hconsistent := OpcodeFields.fault?_x64 (hfields ▸ e.consistent) hm
    refine ⟨⟨_, hconsistent⟩, compile_eq_ok_iff.2 ⟨a.charge (some m) a.fields.immediate, ?_,
      hseen, Checked.make_of_fault hconsistent⟩, rfl⟩
    rw [addAll_longMode, ← immediate_start { context with longMode := none } c.vex]
    exact Assembly.addAll_of_mode hrun (fixedBytes_start_le _ _) hm
  refine ⟨⟨fun ⟨fault, hfault⟩ => ?_, fun hm => ?_⟩, fun hm => ?_⟩
  · refine Decidable.byContradiction fun hm => ?_
    obtain ⟨d, hd, -⟩ := hcompiles hm
    cases hfault.symm.trans hd
  · cases hcompile : c.compile { context with longMode := some m } with
    | error fault => exact ⟨fault, rfl⟩
    | ok d =>
      obtain ⟨b, hb, -⟩ := compile_eq_ok_iff.1 hcompile
      rw [addAll_longMode] at hb
      rw [hfields] at hm
      exact absurd hm (Assembly.x64_ne_of_addAll hrun hx64 hb)
  · obtain ⟨d, hd, hd'⟩ := hcompiles hm
    exact ⟨d, hd, hd', OpcodeDescriptor.accepts_x64 hd' hm⟩

theorem compile_longMode_push :
    (∃ e d, compile ⟨[.bytePlusRegister 0x50], none⟩ ⟨none, none, none⟩ = .ok e ∧
      compile ⟨[.bytePlusRegister 0x50], none⟩ ⟨some false, none, none⟩ = .ok d ∧
      e.accepts (.initial .x64) 0x53 none none = true ∧
      d.accepts (.initial .x64) 0x53 none none = false ∧
      d.accepts (.initial .ia32) 0x53 none none = true) ∧
    ∃ fault, compile ⟨[.o64NoW, .bytePlusRegister 0x50], none⟩ ⟨some false, none, none⟩ =
      .error fault := by
  obtain ⟨e, h, hopen, hlong, hshort⟩ : ∃ e : OpcodeDescriptor,
      compile ⟨[.bytePlusRegister 0x50], none⟩ ⟨none, none, none⟩ = .ok e ∧
        e.fields.x64 = none ∧ e.accepts (.initial .x64) 0x53 none none = true ∧
        e.accepts (.initial .ia32) 0x53 none none = true :=
    ⟨_, rfl, rfl, by decide, by decide⟩
  obtain ⟨d, hd, -, haccepts⟩ := (compile_longMode .default h false).2 (by rw [hopen]; decide)
  refine ⟨⟨e, d, h, hd, hlong, ?_, (haccepts _ _ _ _).2 ⟨hshort, rfl⟩⟩, ?_⟩
  · rw [Bool.eq_false_iff, ne_eq, haccepts]
    exact fun hboth => absurd hboth.2 (by decide)
  · obtain ⟨e, h, hlong⟩ : ∃ e : OpcodeDescriptor,
        compile ⟨[.o64NoW, .bytePlusRegister 0x50], none⟩ ⟨none, none, none⟩ = .ok e ∧
          e.fields.x64 = some true := ⟨_, rfl, rfl⟩
    exact (compile_longMode .default h false).1.2 hlong

end Code
end X86Encoding
