import X86Encoding.Error

/-!
Values that have passed a check. Fields that break a rule are refused with the fault of the
first such rule, never repaired.
-/

set_option autoImplicit false

namespace X86Encoding

/-- Each rule is whether it is kept, with the fault of breaking it. -/
def firstFault? (rules : List (Bool × EncodingError)) : Option EncodingError :=
  (rules.find? fun r => !r.1).map (·.2)

@[simp] theorem firstFault?_eq_none_iff {rules : List (Bool × EncodingError)} :
    firstFault? rules = none ↔ ∀ r ∈ rules, r.1 = true := by
  simp only [firstFault?, Option.map_eq_none_iff, List.find?_eq_none, Bool.not_eq_true',
    Bool.not_eq_false]

structure Checked {α : Type} (fault? : α → Option EncodingError) where
  fields : α
  consistent : fault? fields = none
  deriving DecidableEq, Repr

namespace Checked

variable {α : Type} {fault? : α → Option EncodingError}

def make (f : α) : Except EncodingError (Checked fault?) :=
  match h : fault? f with
  | some e => .error e
  | none => .ok ⟨f, h⟩

theorem make_of_fault {f : α} (h : fault? f = none) :
    make f = .ok (⟨f, h⟩ : Checked fault?) := by
  unfold make
  split
  · next e he => cases h.symm.trans he
  · rfl

theorem make_of_fault_eq_some {f : α} {e : EncodingError} (h : fault? f = some e) :
    make f = (.error e : Except EncodingError (Checked fault?)) := by
  unfold make
  split
  · next e' he => rw [Option.some.inj (he.symm.trans h)]
  · next hnone => cases hnone.symm.trans h

theorem make_fields (c : Checked fault?) : make c.fields = .ok c :=
  make_of_fault c.consistent

theorem fields_of_make {f : α} {c : Checked fault?} (h : make f = .ok c) : c.fields = f := by
  unfold make at h
  split at h <;> cases h
  rfl

@[simp] theorem make_eq_ok_iff {f : α} {c : Checked fault?} : make f = .ok c ↔ f = c.fields := by
  constructor
  · intro h
    exact (fields_of_make h).symm
  · intro h
    rw [h, make_fields]

end Checked
end X86Encoding
