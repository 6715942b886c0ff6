import X86Encoding.Text.Numeral

set_option autoImplicit false

namespace X86Encoding

/-- A number is a mantissa with a count of decimal places. Whole numbers have none. -/
inductive Json where
  | null
  | bool (b : Bool)
  | number (mantissa : Int) (places : Nat)
  | str (t : Text)
  | arr (items : List Json)
  | obj (members : List (Text × Json))
  deriving Repr, Inhabited

namespace Json

def nat (n : Nat) : Json := .number n 0

def escape (c : Char) : Text :=
  if c == '"' || c == '\\' then ['\\', c]
  else if c == '\x08' then ['\\', 'b']
  else if c == '\x0c' then ['\\', 'f']
  else if c == '\n' then ['\\', 'n']
  else if c == '\x0d' then ['\\', 'r']
  else if c == '\t' then ['\\', 't']
  else if c < ' ' then "\\u00".toList ++ Text.hexByte (UInt8.ofNat c.toNat)
  else [c]

def quote (t : Text) : Text := '"' :: t.flatMap escape ++ ['"']

def numberText (mantissa : Int) (places : Nat) : Text :=
  if places = 0 then Text.signed mantissa
  else
    let digits := (Text.decimal mantissa.natAbs).leftpad (places + 1) '0'
    (if mantissa < 0 then ['-'] else []) ++ digits.take (digits.length - places) ++
      '.' :: digits.drop (digits.length - places)

def margin (depth : Nat) : Text := '\n' :: List.replicate (2 * depth) ' '

def block (opening closing : Char) (depth : Nat) (items : List Text) : Text :=
  if items = [] then [opening, closing]
  else
    opening :: Text.joinWith [','] (items.map (margin (depth + 1) ++ ·)) ++ margin depth ++
      [closing]

mutual

def textAt (depth : Nat) : Json → Text
  | .null => "null".toList
  | .bool b => if b then "true".toList else "false".toList
  | .number mantissa places => numberText mantissa places
  | .str t => quote t
  | .arr items => block '[' ']' depth (itemTexts (depth + 1) items)
  | .obj members => block '\x7b' '\x7d' depth (memberTexts (depth + 1) members)

def itemTexts (depth : Nat) : List Json → List Text
  | [] => []
  | x :: rest => textAt depth x :: itemTexts depth rest

def memberTexts (depth : Nat) : List (Text × Json) → List Text
  | [] => []
  | (key, x) :: rest =>
    (quote key ++ ':' :: ' ' :: textAt depth x) :: memberTexts depth rest

end

def text (j : Json) : Text := textAt 0 j

def insertMember (key : Text) (x : Json) : List (Text × Json) → List (Text × Json)
  | [] => [(key, x)]
  | (k, y) :: rest =>
    if k < key then (k, y) :: insertMember key x rest else (key, x) :: (k, y) :: rest

mutual

def sorted : Json → Json
  | .arr items => .arr (sortedItems items)
  | .obj members => .obj (sortedMembers members)
  | j => j

def sortedItems : List Json → List Json
  | [] => []
  | x :: rest => sorted x :: sortedItems rest

def sortedMembers : List (Text × Json) → List (Text × Json)
  | [] => []
  | (key, x) :: rest => insertMember key (sorted x) (sortedMembers rest)

end

end Json
end X86Encoding
