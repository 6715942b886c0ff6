import X86Encoding.Error

set_option autoImplicit false

namespace X86Encoding.Columns

def isIgnored (line : Text) : Bool :=
  match Text.trimStart line with
  | [] => true
  | c :: _ => c == ';'

def columnLength? (t : Text) : Option Nat :=
  match t with
  | '[' :: _ => (t.idxOf? ']').map (· + 1)
  | _ => some (t.takeWhile fun c => !Text.isSpace c).length

theorem columnLength?_pos {t : Text} {n : Nat} (ht : Text.trimStart t ≠ [])
    (h : columnLength? (Text.trimStart t) = some n) : 0 < n := by
  have hh := List.head?_dropWhile_not (p := Text.isSpace) t
  unfold Text.trimStart at ht h
  cases hd : t.dropWhile Text.isSpace with
  | nil => simp_all
  | cons c rest =>
    rw [hd] at h hh
    unfold columnLength? at h
    split at h
    · obtain ⟨m, _, rfl⟩ := Option.map_eq_some_iff.1 h
      omega
    · cases h
      simp_all

def splitFrom (line : Text) (t : Text) : Except EncodingError (List Text) :=
  if _nonblank : Text.trimStart t = [] then .ok []
  else
    match _found : columnLength? (Text.trimStart t) with
    | none => .error (.format .unterminatedCode line)
    | some n =>
      match splitFrom line ((Text.trimStart t).drop n) with
      | .error e => .error e
      | .ok columns => .ok ((Text.trimStart t).take n :: columns)
termination_by t.length
decreasing_by
  have hn := columnLength?_pos _nonblank _found
  have hl : (Text.trimStart t).length ≤ t.length :=
    (List.dropWhile_suffix Text.isSpace).length_le
  have h0 : 0 < (Text.trimStart t).length := List.length_pos_iff.2 _nonblank
  rw [List.length_drop]
  omega

def split (line : Text) : Except EncodingError (List Text) := splitFrom line line

def isMnemonic (t : Text) : Bool :=
  let base := ("cc".toList.isSuffixOf? t).getD t
  base != [] && base.all fun c => Text.isUpper c || Text.isDigit c || c == '_'

structure CodeColumn where
  letters : Text
  tuple : Option Text
  code : Text
  deriving DecidableEq, Repr

namespace CodeColumn

def lettersOk (t : Text) : Bool := t.all fun c => Text.isLower c || c == '-' || c == '+'

def tupleOk (t : Text) : Bool := t != [] && t.all fun c => Text.isLower c || Text.isDigit c

def inner? (t : Text) : Option Text :=
  match t with
  | '[' :: rest => [']'].isSuffixOf? rest
  | _ => none

/-- With a colon there have to be letters; there has to be a code always. -/
def ofParts? : List Text → Option CodeColumn
  | [code] => if Text.trim code = [] then none else some ⟨[], none, Text.trim code⟩
  | [letters, code] =>
    if lettersOk letters && letters != [] && Text.trim code != [] then
      some ⟨letters, none, Text.trim code⟩
    else none
  | [letters, tuple, code] =>
    if lettersOk letters && letters != [] && tupleOk tuple && Text.trim code != [] then
      some ⟨letters, some tuple, Text.trim code⟩
    else none
  | _ => none

def ofText (t : Text) : Except EncodingError CodeColumn :=
  match (inner? t).bind fun inner => ofParts? (inner.splitOn ':') with
  | some c => .ok c
  | none => .error (.format .codeColumn t)

end CodeColumn
end X86Encoding.Columns
