import X86Encoding.Code.Sequence
import X86Encoding.Proofs.Code.Token
import X86Encoding.Proofs.Consistency

set_option autoImplicit false

namespace X86Encoding

namespace VexSlots

variable (role : Option RegisterRole) (size : Option VectorSize) (simd : Option SimdPrefix)
  (map : Option OpcodeMap) (rest : List Text)

@[simp] theorem fill_role : empty.fill ((role.map RegisterRole.token).toList ++ rest) =
    (⟨role, none, none, none, none⟩ : VexSlots).fill rest := by
  cases role with
  | none => rfl
  | some r => cases r <;> rfl

@[simp] theorem fill_vectorSize :
    (⟨role, none, none, none, none⟩ : VexSlots).fill (VexDescriptor.sizeField size :: rest) =
      (⟨role, some size, none, none, none⟩ : VexSlots).fill rest := by
  cases size with
  | none => rfl
  | some s => cases s <;> rfl

@[simp] theorem fill_simd (p : SimdPrefix) :
    (⟨role, some size, none, none, none⟩ : VexSlots).fill
        ((VexDescriptor.simdField? p).toList ++ rest) =
      (⟨role, some size, p.byte?.map fun _ => p, none, none⟩ : VexSlots).fill rest := by
  cases p <;> rfl

@[simp] theorem fill_map {m : OpcodeMap} (h : m ≠ .primary) :
    (⟨role, some size, simd, none, none⟩ : VexSlots).fill (m.vexName?.toList ++ rest) =
      (⟨role, some size, simd, some m, none⟩ : VexSlots).fill rest := by
  cases m with
  | primary => exact absurd rfl h
  | _ => rfl

@[simp] theorem fill_w (w : Option Bool) :
    (⟨role, some size, simd, map, none⟩ : VexSlots).fill [VexDescriptor.wField w] =
      .ok ⟨role, some size, simd, map, some w⟩ := by
  cases w with
  | none => rfl
  | some b => cases b <;> rfl

end VexSlots

namespace VexDescriptor

@[simp] theorem kindOfKeyword?_keyword (kind : VexKind) :
    kindOfKeyword? kind.keyword = some kind := by
  cases kind <;> rfl

/-- A text that neither letter case nor a dot nor a blank changes or divides. -/
def IsPlain (t : Text) : Prop := ∀ c ∈ t, c.toLower = c ∧ c ≠ '.' ∧ Text.isSpace c = false

instance (t : Text) : Decidable (IsPlain t) :=
  decidable_of_iff (t.all (fun c => c.toLower == c && c != '.' && !Text.isSpace c) = true)
    (by simp [IsPlain, and_assoc])

theorem isPlain_part (f : VexFields) : ∀ part ∈ parts f, IsPlain part := by
  obtain ⟨kind, role, size, simd, map, w⟩ := f
  intro part h
  simp only [parts, List.mem_append, List.mem_singleton, Option.mem_toList] at h
  rcases h with ((((h | h) | h) | h) | h) | h
  · subst h
    cases kind <;> decide
  · rw [Option.map_eq_some_iff] at h
    obtain ⟨r, -, rfl⟩ := h
    cases r <;> decide
  · subst h
    rcases size with _ | _ | _ | _ <;> decide
  · cases simd <;> cases h <;> decide
  · cases map <;> cases h <;> decide
  · subst h
    rcases w with _ | _ | _ <;> decide

theorem mem_text {v : VexDescriptor} {c : Char} (h : c ∈ v.text) :
    c.toLower = c ∧ Text.isSpace c = false := by
  rcases Text.mem_joinWith h with ⟨part, hpart, hc⟩ | hc
  · have hplain := isPlain_part v.fields part hpart c hc
    exact ⟨hplain.1, hplain.2.2⟩
  · rw [List.mem_singleton] at hc
    subst hc
    decide

@[simp] theorem lower_text (v : VexDescriptor) : Text.lower v.text = v.text := by
  rw [Text.lower, List.map_congr_left fun c hc => (mem_text hc).1, List.map_id']

@[simp] theorem splitOn_text (v : VexDescriptor) : v.text.splitOn '.' = parts v.fields := by
  apply List.splitOn_intercalate
  · intro part h hdot
    exact (isPlain_part v.fields part h '.' hdot).2.1 rfl
  · simp [parts]

@[simp] theorem ofText_text (v : VexDescriptor) : ofText v.text = .ok v := by
  have hparts : parts v.fields = v.fields.kind.keyword ::
      ((v.fields.role.map RegisterRole.token).toList ++ (sizeField v.fields.vectorSize ::
        ((simdField? v.fields.simd).toList ++ (v.fields.map.vexName?.toList ++
          [wField v.fields.w])))) := by
    simp [parts]
  have hsimd : (v.fields.simd.byte?.map fun _ => v.fields.simd).getD .np = v.fields.simd := by
    cases v.fields.simd <;> rfl
  simp [ofText, hparts, hsimd]

theorem text_eq (v : VexDescriptor) : ∃ rest, v.text = v.fields.kind.keyword ++ '.' :: rest := by
  simp only [text, Text.joinWith, parts, List.cons_append, List.append_assoc, List.nil_append]
  cases (v.fields.role.map RegisterRole.token).toList with
  | nil => exact ⟨_, by rw [List.nil_append, List.intercalate_cons_cons, List.append_assoc]; rfl⟩
  | cons part parts =>
    exact ⟨_, by rw [List.cons_append, List.intercalate_cons_cons, List.append_assoc]; rfl⟩

theorem isWord_text (v : VexDescriptor) : Text.IsWord v.text := by
  refine ⟨?_, fun c hc => (mem_text hc).2⟩
  obtain ⟨rest, h⟩ := v.text_eq
  rw [h]
  simp

@[simp] theorem isVexWord_text (v : VexDescriptor) : Code.isVexWord v.text = true := by
  obtain ⟨rest, h⟩ := v.text_eq
  have hprefix : (v.fields.kind.keyword ++ ['.']).isPrefixOf v.text = true := by
    rw [List.isPrefixOf_iff_prefix, h]
    exact ⟨rest, by simp⟩
  rw [Code.isVexWord, lower_text, List.any_eq_true]
  exact ⟨v.fields.kind, by cases v.fields.kind <;> decide, hprefix⟩

@[simp] theorem ofWord?_text (v : VexDescriptor) : Token.ofWord? v.text = none := by
  -- a keyword is no word for the reader of descriptors, and `v`, `x` and `ev` are no bytes
  have hkeyword : Token.ofKeyword? v.text = none := by
    have hnot : ∀ t ∈ Token.keywords, Code.isVexWord t.spelling = false := by decide
    rw [Token.ofKeyword?, lower_text, List.find?_eq_none]
    intro t ht heq
    have hvex := v.isVexWord_text
    rw [← eq_of_beq heq, hnot t ht] at hvex
    cases hvex
  obtain ⟨rest, h⟩ := v.text_eq
  rw [Token.ofWord?, hkeyword, h]
  cases v.fields.kind <;> rfl

end VexDescriptor
end X86Encoding
