import X86Encoding.Proofs.Code.Assembly

set_option autoImplicit false

namespace X86Encoding

namespace OpcodeFields

def IsLeadByte (f : OpcodeFields) (b : UInt8) : Prop :=
  f.kind = none ∧
    (f.map = .primary ∧ (b = 0x0F ∨ b = 0x66 ∨ b = 0xF2 ∨ b = 0xF3) ∨
      f.map = .escape0F ∧ (b = 0x38 ∨ b = 0x3A))

/-- An embedded register keeps the main byte from being read as such a byte. -/
def MainByteLeads (f : OpcodeFields) : Prop := f.form ≠ .mainByteReg ∧ f.IsLeadByte f.mainByte

/-- The value of the immediate stands where a ModRM byte could, and looks like one. -/
def ImmediateIsModRM (f : OpcodeFields) : Prop :=
  f.form = .noModRM ∧ ∃ b, f.opcodeImmediate = some b ∧ 0xC0 ≤ b

def HasMemoryForm (f : OpcodeFields) : Prop := ∃ reg, f.form = .regMemoryRM reg

end OpcodeFields

namespace Assembly

variable {context : Code.Context} {a a' : Assembly}

theorem leadByte?_eq_none_iff {b : UInt8} :
    a.leadByte? b = none ↔ ¬a.fields.IsLeadByte b := by
  unfold leadByte? OpcodeFields.IsLeadByte
  cases a.fields.kind with
  | some kind => simp
  | none =>
    cases a.fields.map with
    | primary => grind
    | escape0F => grind
    | _ => simp

/-- The invariant of compiling, by what the context leaves open. -/
structure Spelled (context : Code.Context) (a : Assembly) : Prop where
  memory : a.fields.HasMemoryForm → context.rmKind = some .memory
  fixedBytes_le : a.fields.immediate.fixedBytes ≤ 8
  mainByte : a.mainByteSeen = true → context.condition = none → ¬a.fields.MainByteLeads
  modRMSeen : a.modRMSeen = false ↔ a.fields.form = .noModRM
  immediate : ¬a.fields.ImmediateIsModRM

theorem spelled_start (context : Code.Context) (vex : Option VexDescriptor) :
    (start context vex).Spelled context := by
  cases vex <;> constructor <;>
    simp [start, OpcodeFields.initial, OpcodeFields.HasMemoryForm, OpcodeFields.ImmediateIsModRM,
      ImmediateSize.zero]

theorem fixedBytes_add_le {n : UInt8}
    (h : a.fields.immediate.fixedBytes.toNat + n.toNat ≤ 8) :
    a.fields.immediate.fixedBytes + n ≤ 8 := by
  rw [UInt8.le_iff_toNat_le, UInt8.toNat_add]
  simp
  omega

theorem Spelled.change (h : a.Spelled context) (hchange : Change context a a') :
    a'.Spelled context := by
  obtain ⟨hmemory, hfixed, hmain, hmodrm, himm⟩ := h
  -- prefixes and escapes come before the main byte, of which nothing is claimed until then
  cases hchange with
  | keep => exact ⟨hmemory, hfixed, hmain, hmodrm, himm⟩
  | sizes x64 r s => exact ⟨hmemory, hfixed, hmain, hmodrm, himm⟩
  | simd p hkind hnot hsimd =>
    exact ⟨hmemory, hfixed, fun hseen => absurd (hnot.symm.trans hseen) (by decide), hmodrm, himm⟩
  | map map hkind hnot =>
    exact ⟨hmemory, hfixed, fun hseen => absurd (hnot.symm.trans hseen) (by decide), hmodrm, himm⟩
  | mainByte b hnot hlead =>
    exact ⟨hmemory, hfixed, fun _ _ hleads => leadByte?_eq_none_iff.1 hlead hleads.2, hmodrm, himm⟩
  | mainRegister b hnot =>
    refine ⟨?_, hfixed, fun _ _ hleads => hleads.1 rfl, ?_, ?_⟩
    · rintro ⟨reg, hreg⟩
      cases hreg
    · simp
    · rintro ⟨hform, -⟩
      cases hform
  | mainCondition b c hnot hcondition =>
    exact ⟨hmemory, hfixed, fun _ hnone => absurd (hnone.symm.trans hcondition) (by simp), hmodrm,
      himm⟩
  | form form hseen hfree hform hmem =>
    -- a form that is set replaces `noModRM`, so the main byte was no lead byte before
    have hold := hmodrm.1 hfree
    refine ⟨fun ⟨reg, hreg⟩ => hmem reg hreg, hfixed, ?_, ?_, ?_⟩
    · intro _ hnone hleads
      exact hmain hseen hnone ⟨by simp [hold], hleads.2⟩
    · constructor
      · intro h
        cases h
      · rintro rfl
        cases hform
    · rintro ⟨rfl, -⟩
      cases hform
  | immediate n hsize => exact ⟨hmemory, fixedBytes_add_le hsize, hmain, hmodrm, himm⟩
  | varying v hnone => exact ⟨hmemory, hfixed, hmain, hmodrm, himm⟩
  | opcodeImmediate b hseen hbyte hnone hsize =>
    refine ⟨hmemory, fixedBytes_add_le hsize, hmain, hmodrm, ?_⟩
    rintro ⟨hform, b', hb', hle⟩
    cases hb'
    rcases hbyte with hbyte | hbyte
    · rw [hmodrm.2 hform] at hbyte
      cases hbyte
    · exact absurd hle (UInt8.not_le.2 hbyte)

theorem spelled_of_addAll {vex : Option VexDescriptor} {ts : List Token}
    (h : (start context vex).addAll context ts = .ok a) : a.Spelled context :=
  addAll_preserves (fun _ _ _ hb hadd => hb.change (change_of_add hadd))
    (spelled_start context vex) h

end Assembly

namespace Code

/-- A descriptor that was compiled without a condition has none of the ambiguities, save the
memory form where the context asks for it. -/
theorem spelled_of_compile {c : Code} {context : Context} {d : OpcodeDescriptor}
    (h : c.compile context = .ok d) (hcondition : context.condition = none) :
    (d.fields.HasMemoryForm → context.rmKind = some .memory) ∧
      d.fields.immediate.fixedBytes ≤ 8 ∧ ¬d.fields.MainByteLeads ∧
        ¬d.fields.ImmediateIsModRM := by
  obtain ⟨a, hrun, hseen, hfields⟩ := assembly_of_compile h
  have hspelled := Assembly.spelled_of_addAll hrun
  rw [hfields]
  exact ⟨hspelled.memory, hspelled.fixedBytes_le, hspelled.mainByte hseen hcondition,
    hspelled.immediate⟩

end Code
end X86Encoding
