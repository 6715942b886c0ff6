import X86Encoding.Proofs.Code.Assembly
import X86Encoding.Proofs.Consistency

/-!
What tokens ask of a descriptor, and which of them it follows. The other mode or a second SIMD
prefix is refused; of operand sizes, address sizes and escapes in one word, the last one stands.
So a descriptor follows all of its tokens exactly when no two of these ask for different things,
and a vector prefix keeps its W bit exactly when the last operand size asks for it.
-/

set_option autoImplicit false

namespace X86Encoding

namespace Token

def operandSize? : Token → Option OperandSizeRule
  | .o16 => some .word
  | .o32 => some .dword
  | .o64 | .rexW => some .promotion
  | .noRexW => some .noPromotion
  | _ => none

def addressSize? : Token → Option AddressSize
  | .a16 => some .a16
  | .a32 => some .a32
  | .a64 => some .a64
  | _ => none

def escape? : Token → Option OpcodeMap
  | .escape0F38 => some .escape0F38
  | .escape0F3A => some .escape0F3A
  | _ => none

def simd? : Token → Option SimdPrefix
  | .noSimd => some .np
  | .marker .f2i => some .pF2
  | .marker .f3i => some .pF3
  | _ => none

def x64? : Token → Option Bool
  | .x64 | .o64 | .o64NoW | .a64 => some true
  | .ia32 | .a16 => some false
  | _ => none

end Token

/-! ## One step -/

namespace Assembly

variable {context : Code.Context} {a a' : Assembly} {t : Token}

/-- What a step does to the fields before the main byte. A byte that is a SIMD prefix or a part of
an escape sets fields that no token asked for; a step that does neither, and whose token asks for
nothing, changes nothing here. -/
structure HeadStep (a : Assembly) (t : Token) (a' : Assembly) : Prop where
  kind : a'.fields.kind = a.fields.kind := by rfl
  vectorSize : a'.fields.vectorSize = a.fields.vectorSize := by rfl
  operandSize : a'.fields.operandSize = t.operandSize?.getD a.fields.operandSize := by rfl
  addressSize : a'.fields.addressSize = t.addressSize?.or a.fields.addressSize := by rfl
  x64 : a'.fields.x64 = t.x64?.or a.fields.x64 := by rfl
  x64_agrees : ∀ m, t.x64? = some m → a.fields.x64.all (· == m) = true := by nofun
  simd : a'.fields.simd = a.fields.simd ∧ t.simd? = none ∨
    (a.fields.kind = none ∧ a.fields.simd = none) ∧
      (t.simd? = none ∨ t.simd? = a'.fields.simd) := by exact .inl ⟨rfl, rfl⟩
  map : a'.fields.map = a.fields.map ∧ t.escape? = none ∨
    a.fields.kind = none ∧
      (t.escape? = some a'.fields.map ∨
        t.escape? = none ∧ (a.fields.map = .primary ∨ a.fields.map = .escape0F)) := by
          exact .inl ⟨rfl, rfl⟩

theorem map_of_leadByte? {b : UInt8} {map : OpcodeMap} (h : a.leadByte? b = some (.inr map)) :
    a.fields.map = .primary ∨ a.fields.map = .escape0F := by
  unfold leadByte? at h
  cases hmap : a.fields.map with
  | primary => exact .inl rfl
  | escape0F => exact .inr rfl
  | _ => simp [hmap] at h

theorem headStep_of_addByte {b : UInt8} (h : a.addByte b = .ok a') : HeadStep a (.byte b) a' := by
  unfold addByte at h
  split at h
  · split at h
    · obtain ⟨⟨hkind, -, hsimd⟩, rfl⟩ := setSimd_eq_ok.1 h
      exact { simd := .inr ⟨⟨hkind, hsimd⟩, .inl rfl⟩ }
    · next hlead =>
      obtain ⟨⟨hkind, -⟩, rfl⟩ := setMap_eq_ok.1 h
      exact { map := .inr ⟨hkind, .inr ⟨rfl, map_of_leadByte? hlead⟩⟩ }
    · cases h
      exact {}
  · split at h
    · obtain ⟨-, rfl⟩ := setForm_eq_ok.1 h
      exact {}
    · obtain ⟨-, h⟩ := ite_fail_eq_ok.1 h
      obtain ⟨-, rfl⟩ := addImmediate_eq_ok.1 h
      exact {}

theorem headStep_of_addRegisterByte {b : UInt8} (h : a.addRegisterByte b = .ok a') :
    HeadStep a (.bytePlusRegister b) a' := by
  unfold addRegisterByte at h
  split at h
  · cases h
    exact {}
  · obtain ⟨-, h⟩ := ite_fail_eq_ok.1 h
    obtain ⟨-, rfl⟩ := setForm_eq_ok.1 h
    exact {}

theorem headStep_of_addConditionByte {b : UInt8}
    (h : a.addConditionByte context.condition b = .ok a') :
    HeadStep a (.bytePlusCondition b) a' := by
  unfold addConditionByte at h
  obtain ⟨-, h⟩ := ite_fail_eq_ok.1 h
  split at h
  · cases h
  · cases h
    exact {}

theorem headStep_of_setMode {x64 : Bool} {r : OperandSizeRule} {s : Option AddressSize}
    (hx64 : t.x64? = some x64) (hr : r = t.operandSize?.getD a.fields.operandSize)
    (hs : s = t.addressSize?.or a.fields.addressSize) (hsimd : t.simd? = none)
    (hescape : t.escape? = none)
    (h : { a with fields.operandSize := r, fields.addressSize := s }.setMode x64 = .ok a') :
    HeadStep a t a' := by
  obtain ⟨hmode, rfl⟩ := setMode_eq_ok.1 h
  refine
    { operandSize := hr
      addressSize := hs
      x64 := by rw [hx64, Option.some_or]
      x64_agrees := fun m hm => ?_
      simd := .inl ⟨rfl, hsimd⟩
      map := .inl ⟨rfl, hescape⟩ }
  cases hx64.symm.trans hm
  exact hmode

theorem headStep_of_add (h : a.add context t = .ok a') : HeadStep a t a' := by
  cases t with
  | byte b => exact headStep_of_addByte h
  | bytePlusRegister b => exact headStep_of_addRegisterByte h
  | bytePlusCondition b => exact headStep_of_addConditionByte h
  | modRMReg | modRM =>
    obtain ⟨-, rfl⟩ := setForm_eq_ok.1 h
    exact {}
  | vex =>
    obtain ⟨-, h⟩ := ite_fail_eq_ok.1 h
    cases h
    exact {}
  | iwd | iwdq | rel =>
    obtain ⟨-, rfl⟩ := setVarying_eq_ok.1 h
    exact {}
  | is4 | ib | ibSigned | ibUnsigned | iw | id | idSigned | iq | rel8 | seg =>
    obtain ⟨-, rfl⟩ := addImmediate_eq_ok.1 h
    exact {}
  | o16 | o32 | rexW | noRexW | a32 | operandDefault | addressDefault =>
    cases h
    exact {}
  | o64 | o64NoW | x64 | ia32 | a16 | a64 => exact headStep_of_setMode rfl rfl rfl rfl rfl h
  | noSimd =>
    obtain ⟨⟨hkind, -, hsimd⟩, rfl⟩ := setSimd_eq_ok.1 h
    exact { simd := .inr ⟨⟨hkind, hsimd⟩, .inr rfl⟩ }
  | escape0F38 | escape0F3A =>
    obtain ⟨⟨hkind, -⟩, rfl⟩ := setMap_eq_ok.1 h
    exact { map := .inr ⟨hkind, .inl rfl⟩ }
  | marker m =>
    cases m with
    | f2i | f3i =>
      obtain ⟨⟨hkind, -, hsimd⟩, rfl⟩ := setSimd_eq_ok.1 h
      exact { simd := .inr ⟨⟨hkind, hsimd⟩, .inr rfl⟩ }
    | _ =>
      cases h
      exact {}

namespace HeadStep

theorem x64_keep {m : Bool} (h : HeadStep a t a') (hm : a.fields.x64 = some m) :
    a'.fields.x64 = some m := by
  cases hask : t.x64? with
  | none => rw [h.x64, hask, Option.none_or, hm]
  | some m' =>
    have hsame : m = m' := by simpa [hm] using h.x64_agrees m' hask
    rw [h.x64, hask, Option.some_or, hsame]

theorem simd_write {p : SimdPrefix} (h : HeadStep a t a') (hp : t.simd? = some p) :
    a'.fields.simd = some p := by
  rcases h.simd with ⟨-, hnone⟩ | ⟨-, hnone | hset⟩
  · cases hnone.symm.trans hp
  · cases hnone.symm.trans hp
  · exact hset.symm.trans hp

theorem simd_keep {p : SimdPrefix} (h : HeadStep a t a') (hp : a.fields.simd = some p) :
    a'.fields.simd = some p := by
  rcases h.simd with ⟨hsame, -⟩ | ⟨⟨-, hfree⟩, -⟩
  · exact hsame.trans hp
  · cases hfree.symm.trans hp

theorem map_write {m : OpcodeMap} (h : HeadStep a t a') (hm : t.escape? = some m) :
    a'.fields.map = m := by
  rcases h.map with ⟨-, hnone⟩ | ⟨-, hset | ⟨hnone, -⟩⟩
  · cases hnone.symm.trans hm
  · exact Option.some.inj (hset.symm.trans hm)
  · cases hnone.symm.trans hm

theorem map_skip (h : HeadStep a t a') (hask : t.escape? = none) (hp : a.fields.map ≠ .primary)
    (he : a.fields.map ≠ .escape0F) : a'.fields.map = a.fields.map := by
  rcases h.map with ⟨hsame, -⟩ | ⟨-, hset | ⟨-, hmap | hmap⟩⟩
  · exact hsame
  · cases hset.symm.trans hask
  · exact absurd hmap hp
  · exact absurd hmap he

/-- Under a vector prefix there is neither a SIMD prefix nor an escape. -/
theorem keep_of_kind (h : HeadStep a t a') (hkind : a.fields.kind ≠ none) :
    a'.fields.simd = a.fields.simd ∧ a'.fields.map = a.fields.map := by
  constructor
  · rcases h.simd with ⟨hsame, -⟩ | ⟨⟨hnone, -⟩, -⟩
    · exact hsame
    · exact absurd hnone hkind
  · rcases h.map with ⟨hsame, -⟩ | ⟨hnone, -⟩
    · exact hsame
    · exact absurd hnone hkind

end HeadStep

/-! ## Runs -/

structure Writes {α : Type} (context : Code.Context) (ask? : Token → Option α)
    (Holds : α → Assembly → Prop) : Prop where
  write : ∀ {a a' : Assembly} {t : Token} {v : α}, a.add context t = .ok a' → ask? t = some v →
    Holds v a'
  skip : ∀ {a a' : Assembly} {t : Token} {v : α}, a.add context t = .ok a' → ask? t = none →
    Holds v a → Holds v a'

section Writes

variable {α : Type} {ask? : Token → Option α} {Holds : α → Assembly → Prop} {ts : List Token}

/-- The last token that asks is the one whose value is held. -/
theorem Writes.last (hw : Writes context ask? Holds) {o : Option α}
    (ho : ∀ v, o = some v → Holds v a) (h : a.addAll context ts = .ok a') {v : α}
    (hv : (ts.filterMap ask?).getLast?.or o = some v) : Holds v a' := by
  induction ts generalizing a o with
  | nil =>
    cases h
    exact ho v hv
  | cons t ts ih =>
    obtain ⟨b, hb, h⟩ := addAll_cons_eq_ok.1 h
    cases ht : ask? t with
    | none =>
      rw [List.filterMap_cons_none ht] at hv
      exact ih (fun u hu => hw.skip hb ht (ho u hu)) h hv
    | some u =>
      rw [List.filterMap_cons_some ht, List.getLast?_cons, Option.some_or] at hv
      refine ih (o := some u) (fun u' hu => hw.write hb (hu ▸ ht)) h ?_
      rw [← hv]
      cases (ts.filterMap ask?).getLast? <;> rfl

/-- Where no step changes what is held, every token that asks gets what it asks for. -/
theorem Writes.all (hw : Writes context ask? Holds)
    (hkeep : ∀ a t a' v, Holds v a → a.add context t = .ok a' → Holds v a')
    (h : a.addAll context ts = .ok a') (hmem : t ∈ ts) {v : α} (hv : ask? t = some v) :
    Holds v a' := by
  induction ts generalizing a with
  | nil => cases hmem
  | cons u ts ih =>
    obtain ⟨b, hb, hrest⟩ := addAll_cons_eq_ok.1 h
    rcases List.mem_cons.1 hmem with rfl | hmem
    · exact addAll_preserves (fun a t a' => hkeep a t a' v) (hw.write hb hv) hrest
    · exact ih hrest hmem

end Writes

theorem writes_operandSize (context : Code.Context) :
    Writes context Token.operandSize? fun r a => a.fields.operandSize = r where
  write h ht := by rw [(headStep_of_add h).operandSize, ht, Option.getD_some]
  skip h ht ha := by rw [(headStep_of_add h).operandSize, ht, Option.getD_none, ha]

theorem writes_addressSize (context : Code.Context) :
    Writes context Token.addressSize? fun s a => a.fields.addressSize = some s where
  write h ht := by rw [(headStep_of_add h).addressSize, ht, Option.some_or]
  skip h ht ha := by rw [(headStep_of_add h).addressSize, ht, Option.none_or, ha]

theorem writes_x64 (context : Code.Context) :
    Writes context Token.x64? fun m a => a.fields.x64 = some m where
  write h ht := by rw [(headStep_of_add h).x64, ht, Option.some_or]
  skip h _ ha := (headStep_of_add h).x64_keep ha

theorem writes_simd (context : Code.Context) :
    Writes context Token.simd? fun p a => a.fields.simd = some p where
  write h ht := (headStep_of_add h).simd_write ht
  skip h _ ha := (headStep_of_add h).simd_keep ha

theorem writes_escape (context : Code.Context) :
    Writes context Token.escape? fun m a =>
      a.fields.map = m ∧ m ≠ .primary ∧ m ≠ .escape0F where
  write {a a' t m} h ht := by
    have hm : m = .escape0F38 ∨ m = .escape0F3A := by
      cases t <;> simp_all [Token.escape?]
    exact ⟨(headStep_of_add h).map_write ht, by rcases hm with rfl | rfl <;> decide⟩
  skip h ht := by
    rintro ⟨rfl, hp, he⟩
    exact ⟨(headStep_of_add h).map_skip ht hp he, hp, he⟩

end Assembly

/-! ## What the descriptor follows -/

namespace Token

structure HonouredBy (t : Token) (f : OpcodeFields) : Prop where
  operandSize : ∀ r, t.operandSize? = some r → f.operandSize = r
  addressSize : ∀ s, t.addressSize? = some s → f.addressSize = some s
  map : ∀ m, t.escape? = some m → f.map = m
  simd : ∀ p, t.simd? = some p → f.simd = some p
  x64 : ∀ m, t.x64? = some m → f.x64 = some m

structure AgreesWith (t u : Token) : Prop where
  operandSize : ∀ r ∈ t.operandSize?, ∀ r' ∈ u.operandSize?, r = r'
  addressSize : ∀ s ∈ t.addressSize?, ∀ s' ∈ u.addressSize?, s = s'
  map : ∀ m ∈ t.escape?, ∀ m' ∈ u.escape?, m = m'

instance (t u : Token) : Decidable (t.AgreesWith u) :=
  decidable_of_iff ((∀ r ∈ t.operandSize?, ∀ r' ∈ u.operandSize?, r = r') ∧
      (∀ s ∈ t.addressSize?, ∀ s' ∈ u.addressSize?, s = s') ∧
      ∀ m ∈ t.escape?, ∀ m' ∈ u.escape?, m = m')
    ⟨fun ⟨ho, ha, hm⟩ => ⟨ho, ha, hm⟩, fun ⟨ho, ha, hm⟩ => ⟨ho, ha, hm⟩⟩

end Token

namespace Code

variable {c : Code} {context : Context} {d : OpcodeDescriptor}

/-- What the last of the tokens asks for that ask for anything of the kind. -/
def last? {α : Type} (c : Code) (ask? : Token → Option α) : Option α :=
  (c.tokens.filterMap ask?).getLast?

theorem last?_of_agree {α : Type} {ask? : Token → Option α} {t : Token} {v : α}
    (hagree : ∀ u ∈ c.tokens, ∀ v', ask? u = some v' → v' = v) (ht : t ∈ c.tokens)
    (hv : ask? t = some v) : c.last? ask? = some v := by
  have hmem : v ∈ c.tokens.filterMap ask? := List.mem_filterMap.2 ⟨t, ht, hv⟩
  cases hlast : c.last? ask? with
  | none => simp [List.getLast?_eq_none_iff.1 hlast] at hmem
  | some v' =>
    obtain ⟨u, hu, hv'⟩ := List.mem_filterMap.1 (List.mem_of_getLast? hlast)
    rw [hagree u hu v' hv']

theorem simd_of_compile (h : c.compile context = .ok d) {t : Token} (ht : t ∈ c.tokens)
    {p : SimdPrefix} (hp : t.simd? = some p) : d.fields.simd = some p := by
  obtain ⟨a, hrun, -, hfields⟩ := assembly_of_compile h
  rw [hfields]
  exact (Assembly.writes_simd context).all
    (fun _ _ _ _ ha hadd => (Assembly.headStep_of_add hadd).simd_keep ha) hrun ht hp

theorem x64_of_compile (h : c.compile context = .ok d) {t : Token} (ht : t ∈ c.tokens)
    {m : Bool} (hm : t.x64? = some m) : d.fields.x64 = some m := by
  obtain ⟨a, hrun, -, hfields⟩ := assembly_of_compile h
  rw [hfields]
  exact (Assembly.writes_x64 context).all
    (fun _ _ _ _ ha hadd => (Assembly.headStep_of_add hadd).x64_keep ha) hrun ht hm

theorem operandSize_of_compile (h : c.compile context = .ok d) {r : OperandSizeRule}
    (hr : (c.last? Token.operandSize?).or (c.vex.map fun v => .ofPromotion v.fields.w) = some r) :
    d.fields.operandSize = r := by
  obtain ⟨a, hrun, -, hfields⟩ := assembly_of_compile h
  rw [hfields]
  refine (Assembly.writes_operandSize context).last (fun r hr => ?_) hrun hr
  obtain ⟨v, hvex, rfl⟩ := Option.map_eq_some_iff.1 hr
  rw [hvex]
  rfl

theorem addressSize_of_compile (h : c.compile context = .ok d) {s : AddressSize}
    (hs : c.last? Token.addressSize? = some s) : d.fields.addressSize = some s := by
  obtain ⟨a, hrun, -, hfields⟩ := assembly_of_compile h
  rw [hfields]
  exact (Assembly.writes_addressSize context).last (o := none) nofun hrun
    (Option.or_eq_some_iff.2 (.inl hs))

theorem map_of_compile (h : c.compile context = .ok d) {m : OpcodeMap}
    (hm : c.last? Token.escape? = some m) : d.fields.map = m := by
  obtain ⟨a, hrun, -, hfields⟩ := assembly_of_compile h
  rw [hfields]
  exact ((Assembly.writes_escape context).last (o := none) nofun hrun
    (Option.or_eq_some_iff.2 (.inl hm))).1

/-- Of what the tokens ask, a SIMD prefix and a mode are always given, of sizes and escapes those
of the last token. So everything is given exactly when no two tokens ask for different ones. -/
theorem compile_honours (h : c.compile context = .ok d) :
    (∀ t ∈ c.tokens, (∀ p, t.simd? = some p → d.fields.simd = some p) ∧
      ∀ m, t.x64? = some m → d.fields.x64 = some m) ∧
    ((∀ r, c.last? Token.operandSize? = some r → d.fields.operandSize = r) ∧
      (∀ s, c.last? Token.addressSize? = some s → d.fields.addressSize = some s) ∧
      ∀ m, c.last? Token.escape? = some m → d.fields.map = m) ∧
    ((∀ t ∈ c.tokens, t.HonouredBy d.fields) ↔
      ∀ t ∈ c.tokens, ∀ u ∈ c.tokens, t.AgreesWith u) := by
  have hoperand : ∀ r, c.last? Token.operandSize? = some r → d.fields.operandSize = r :=
    fun r hr => operandSize_of_compile h (Option.or_eq_some_iff.2 (.inl hr))
  refine ⟨fun t ht => ⟨fun p => simd_of_compile h ht, fun m => x64_of_compile h ht⟩,
    ⟨hoperand, fun s => addressSize_of_compile h, fun m => map_of_compile h⟩, ?_, ?_⟩
  · intro hall t ht u hu
    constructor
    · intro r hr r' hr'
      exact ((hall t ht).operandSize r hr).symm.trans ((hall u hu).operandSize r' hr')
    · intro s hs s' hs'
      exact Option.some.inj
        (((hall t ht).addressSize s hs).symm.trans ((hall u hu).addressSize s' hs'))
    · intro m hm m' hm'
      exact ((hall t ht).map m hm).symm.trans ((hall u hu).map m' hm')
  · intro hagree t ht
    constructor
    · intro r hr
      exact hoperand r (last?_of_agree
        (fun u hu r' hr' => (hagree u hu t ht).operandSize r' hr' r hr) ht hr)
    · intro s hs
      exact addressSize_of_compile h (last?_of_agree
        (fun u hu s' hs' => (hagree u hu t ht).addressSize s' hs' s hs) ht hs)
    · intro m hm
      exact map_of_compile h (last?_of_agree
        (fun u hu m' hm' => (hagree u hu t ht).map m' hm' m hm) ht hm)
    · exact fun p => simd_of_compile h ht
    · exact fun m => x64_of_compile h ht

/-- In `x64 a64 o64 rex.w np 0f38 f6 /r` some tokens ask for the same twice. -/
def askedTwice : Code :=
  ⟨[.x64, .a64, .o64, .rexW, .noSimd, .escape0F38, .byte 0xF6, .modRM], none⟩

theorem compile_honours_askedTwice :
    ∃ d, askedTwice.compile .default = .ok d ∧
      (∀ t ∈ askedTwice.tokens, ∀ u ∈ askedTwice.tokens, t.AgreesWith u) ∧
      ∀ t ∈ askedTwice.tokens, t.HonouredBy d.fields := by
  obtain ⟨d, h⟩ : ∃ d, askedTwice.compile .default = .ok d := ⟨_, rfl⟩
  have hagree : ∀ t ∈ askedTwice.tokens, ∀ u ∈ askedTwice.tokens, t.AgreesWith u := by decide
  exact ⟨d, h, hagree, (compile_honours h).2.2.2 hagree⟩

/-- In `o16 o32 90` the second operand size takes the place of the first. -/
theorem not_compile_honours_all :
    ¬∀ (c : Code) (context : Context) (d : OpcodeDescriptor), c.compile context = .ok d →
      ∀ t ∈ c.tokens, t.HonouredBy d.fields := by
  intro hall
  have hsize := (hall ⟨[.o16, .o32, .byte 0x90], none⟩ .default _ rfl .o16
    List.mem_cons_self).operandSize .word rfl
  exact absurd hsize (by decide)

end Code

/-! ## The vector prefix -/

namespace VexDescriptor

def withoutRole (v : VexDescriptor) : VexDescriptor :=
  ⟨{ v.fields with role := none }, v.consistent⟩

def withW (v : VexDescriptor) (w : Option Bool) : VexDescriptor :=
  ⟨{ v.fields with w := w }, v.consistent⟩

end VexDescriptor

theorem OperandSizeRule.promotion?_ofPromotion (w : Option Bool) :
    (ofPromotion w).promotion? = w := by
  rcases w with _ | _ | _ <;> rfl

namespace Assembly

variable {context : Code.Context} {a a' : Assembly} {v : VexDescriptor}

/-- The fields of a vector prefix, save the W bit, which is kept as an operand size. -/
structure Carries (v : VexDescriptor) (a : Assembly) : Prop where
  kind : a.fields.kind = some v.fields.kind
  vectorSize : a.fields.vectorSize = v.fields.vectorSize
  simd : a.fields.simd = some v.fields.simd
  map : a.fields.map = v.fields.map

theorem carries_start (context : Code.Context) (v : VexDescriptor) :
    (start context (some v)).Carries v :=
  ⟨rfl, rfl, rfl, rfl⟩

theorem Carries.step {t : Token} (ha : a.Carries v) (h : HeadStep a t a') : a'.Carries v := by
  have hkind : a.fields.kind ≠ none := by simp [ha.kind]
  obtain ⟨hsimd, hmap⟩ := h.keep_of_kind hkind
  exact ⟨h.kind.trans ha.kind, h.vectorSize.trans ha.vectorSize, hsimd.trans ha.simd,
    hmap.trans ha.map⟩

theorem carries_of_addAll {ts : List Token}
    (h : (start context (some v)).addAll context ts = .ok a) : a.Carries v :=
  addAll_preserves (fun _ _ _ ha hadd => ha.step (headStep_of_add hadd))
    (carries_start context v) h

end Assembly

namespace Code

variable {c : Code} {context : Context} {d : OpcodeDescriptor} {v : VexDescriptor}

theorem vex_of_promotion (hvex : c.vex = some v) (h : c.compile context = .ok d) :
    d.vex = .ok (v.withoutRole.withW d.fields.operandSize.promotion?) := by
  obtain ⟨a, hrun, -, hfields⟩ := assembly_of_compile h
  rw [hvex] at hrun
  obtain ⟨hkind, hsize, hsimd, hmap⟩ := Assembly.carries_of_addAll hrun
  have hpart : d.fields.vexFields? =
      some (v.withoutRole.withW d.fields.operandSize.promotion?).fields := by
    simp [OpcodeFields.vexFields?, hfields, hkind, hsize, hsimd, hmap,
      VexDescriptor.withoutRole, VexDescriptor.withW]
  simp only [OpcodeDescriptor.vex, hpart]
  exact Checked.make_fields _

/-- A vector prefix comes back without its role, and with the W bit that the last operand size asks
for. It is otherwise the same exactly when this is the bit that it had. -/
theorem vex_of_compile (hvex : c.vex = some v) (h : c.compile context = .ok d) :
    d.vex = .ok (v.withoutRole.withW
      ((c.last? Token.operandSize?).elim v.fields.w OperandSizeRule.promotion?)) ∧
    (d.vex = .ok v.withoutRole ↔
      ∀ r, c.last? Token.operandSize? = some r → r.promotion? = v.fields.w) := by
  have hback := vex_of_promotion hvex h
  have hrule : d.fields.operandSize =
      (c.last? Token.operandSize?).getD (.ofPromotion v.fields.w) := by
    apply operandSize_of_compile h
    rw [hvex, Option.map_some]
    cases c.last? Token.operandSize? <;> rfl
  rw [hback, hrule]
  cases c.last? Token.operandSize? with
  | none =>
    rw [Option.getD_none, Option.elim_none, OperandSizeRule.promotion?_ofPromotion]
    exact ⟨rfl, nofun, fun _ => rfl⟩
  | some r =>
    refine ⟨rfl, ?_, ?_⟩
    · rintro heq r' ⟨⟩
      exact congrArg (fun v : VexDescriptor => v.fields.w) (Except.ok.inj heq)
    · intro hw
      rw [Option.getD_some, hw r rfl]
      rfl

/-- `vex.nds.128.66.0f38.w1 norexw rex.w 98 /r` -/
def promotedAgain : Code :=
  ⟨[.vex, .noRexW, .rexW, .byte 0x98, .modRM],
    some ⟨⟨.vex, some .source, some .v128, .p66, .escape0F38, some true⟩, by decide⟩⟩

theorem vex_of_compile_promotedAgain :
    ∃ v d, ofText "vex.nds.128.66.0f38.w1 norexw rex.w 98 /r".toList = .ok promotedAgain ∧
      promotedAgain.vex = some v ∧ promotedAgain.compile .default = .ok d ∧
      (∀ r, promotedAgain.last? Token.operandSize? = some r → r.promotion? = v.fields.w) ∧
      d.vex = .ok v.withoutRole := by
  obtain ⟨v, hvex, hw⟩ : ∃ v, promotedAgain.vex = some v ∧ v.fields.w = some true :=
    ⟨_, rfl, rfl⟩
  obtain ⟨d, h⟩ : ∃ d, promotedAgain.compile .default = .ok d := ⟨_, rfl⟩
  have hlast : ∀ r, promotedAgain.last? Token.operandSize? = some r →
      r.promotion? = v.fields.w := by
    rintro r ⟨⟩
    rw [hw]
    rfl
  exact ⟨v, d, rfl, hvex, h, hlast, (vex_of_compile hvex h).2.2 hlast⟩

/-- `vex.128.0f.w0 rex.w 10` -/
def promotedLate : Code :=
  ⟨[.vex, .rexW, .byte 0x10],
    some ⟨⟨.vex, none, some .v128, .np, .escape0F, some false⟩, by decide⟩⟩

/-- A descriptor that asks for a clear W bit comes back asking for a set one. -/
theorem not_vex_of_compile_unchanged :
    ¬∀ (t : Text) (c : Code) (context : Context) (v : VexDescriptor) (d : OpcodeDescriptor),
      ofText t = .ok c → c.vex = some v → c.compile context = .ok d →
        d.vex = .ok v.withoutRole := by
  intro hall
  have hvex := hall "vex.128.0f.w0 rex.w 10".toList promotedLate .default _ _ rfl rfl rfl
  have hw := congrArg (fun r => r.toOption.map fun v => v.fields.w) hvex
  exact absurd hw (by decide)

end Code
end X86Encoding
