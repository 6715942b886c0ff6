/-!
Texts are lists of characters. White space is Unicode White_Space, letter case is ASCII case,
and a line ends at a line feed, with or without a carriage return before it.
-/

set_option autoImplicit false

namespace X86Encoding

/-- Powers of numbers. This instance comes before those of other libraries, so that a power is
the same in every module. -/
@[default_instance 20000]
instance (priority := high) natPow : Pow Nat Nat := instPowNat

abbrev Text := List Char

namespace Text

/-- The Unicode property White_Space. Zero-width characters do not have it. -/
def isSpace (c : Char) : Bool :=
  c == ' ' || ('\t' ≤ c && c ≤ '\x0d') || c == '\u0085' || c == '\u00a0' || c == '\u1680' ||
    ('\u2000' ≤ c && c ≤ '\u200a') || c == '\u2028' || c == '\u2029' || c == '\u202f' ||
    c == '\u205f' || c == '\u3000'

def isLower (c : Char) : Bool := 'a' ≤ c && c ≤ 'z'

def isUpper (c : Char) : Bool := 'A' ≤ c && c ≤ 'Z'

def isDigit (c : Char) : Bool := '0' ≤ c && c ≤ '9'

/-- ASCII letters to lower case, everything else as it is. -/
def lower (t : Text) : Text := t.map Char.toLower

@[simp] theorem lower_nil : lower [] = [] := rfl

@[simp] theorem lower_cons (c : Char) (t : Text) : lower (c :: t) = c.toLower :: lower t := rfl

@[simp] theorem lower_append (s t : Text) : lower (s ++ t) = lower s ++ lower t := List.map_append

@[simp] theorem lower_eq_nil_iff {t : Text} : lower t = [] ↔ t = [] := List.map_eq_nil_iff

def trimStart (t : Text) : Text := t.dropWhile isSpace

def trim (t : Text) : Text := (trimStart (trimStart t).reverse).reverse

def words (t : Text) : List Text := (t.splitOnP isSpace).filter (· ≠ [])

/-- One carriage return at the end belongs to the line end, not to the line. -/
def dropReturn (line : Text) : Text := (['\x0d'].isSuffixOf? line).getD line

/-- A carriage return counts as part of a line end only before a line feed, and what follows
the last line feed is a line only if it is not empty. -/
def ofPieces : List Text → List Text
  | [] => []
  | [last] => if last = [] then [] else [last]
  | line :: rest => dropReturn line :: ofPieces rest

def lines (t : Text) : List Text := ofPieces (t.splitOn '\n')

/-- Whether `part` stands anywhere inside the text. -/
def holds (part : Text) : Text → Bool
  | [] => part == []
  | c :: rest => part.isPrefixOf (c :: rest) || holds part rest

def joinWith (separator : Text) (parts : List Text) : Text := separator.intercalate parts

def sameLetters (s t : Text) : Bool := lower s == lower t

end Text
end X86Encoding
