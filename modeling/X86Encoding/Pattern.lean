import X86Encoding.Bits

/-!
Bit patterns: texts of `0`, `1` and lower-case letters, where a run of one letter stands for
the bits of a variable and `_` groups without meaning. A pattern has a normal form, splits
into runs, evaluates to a value once its letters are bound, and has a printed form with a
separator at each run boundary.
-/

set_option autoImplicit false

namespace X86Encoding

/-- A maximal run of one character, by the offset of its first byte. -/
structure BitRun where
  ch : Char
  start : Nat
  length : Nat
  deriving DecidableEq, Repr

namespace Pattern

def isBit (c : Char) : Bool := c == '0' || c == '1'

def isPatternChar (c : Char) : Bool := isBit c || Text.isLower c

end Pattern

namespace BitRun

def stop (r : BitRun) : Nat := r.start + r.length

def isConstant (r : BitRun) : Bool := Pattern.isBit r.ch

def isVariable (r : BitRun) : Bool := !r.isConstant

end BitRun

namespace Pattern

def strip (p : Text) : Text := p.filter (· ≠ '_')

/-- The first fault from the left, when the letters in `seen` and then `last` came before. -/
def firstFault (seen : List Char) (last : Option Char) : Text → Option FormatFault
  | [] => none
  | c :: rest =>
    if Text.isLower c then
      if seen.contains c && last != some c then some .repeatedVariable
      else firstFault (c :: seen) (some c) rest
    else if isBit c then firstFault seen (some c) rest
    else some .patternCharacter

/-- The pattern without separators. A letter must not come back after another character. -/
def normalize (p : Text) : Except EncodingError Text :=
  if strip p = [] then .error (.format .emptyPattern p)
  else
    match firstFault [] none (strip p) with
    | some fault => .error (.format fault p)
    | none => .ok (strip p)

def bitValue (c : Char) : UInt64 := if c == '1' then 1 else 0

def readConstant (bits : UInt64) (length : Nat) : Text → Option Bits
  | [] => some ⟨bits, UInt8.ofNat length⟩
  | c :: rest =>
    if isBit c then
      if length = Bits.maxLength then none
      else readConstant (bits <<< 1 ||| bitValue c) (length + 1) rest
    else if c == '_' then readConstant bits length rest
    else none

/-- The value of a pattern of digits and separators only; there may be no digit at all. -/
def constant? (p : Text) : Option Bits := readConstant 0 0 p

def isConstant (p : Text) : Bool := (constant? p).isSome

def bytes (p : Text) : List UInt8 := p.flatMap String.utf8EncodeChar

/-- Runs are found in bytes. No byte of a character beyond ASCII is a pattern character. -/
def headRun (p : Text) (start : Nat) (first : UInt8) (rest : List UInt8) :
    Except EncodingError BitRun :=
  let ch := Char.ofNat first.toNat
  if isPatternChar ch then .ok ⟨ch, start, 1 + (rest.takeWhile (· == first)).length⟩
  else .error (.format .patternCharacter p)

def runAt (p : Text) (index : Nat) : Except EncodingError BitRun :=
  match (bytes p).drop index with
  | [] => .error (.argumentRange .index index)
  | first :: rest => headRun p index first rest

/-- The runs from the byte at `start` on; a fault is the last item. -/
def runsFrom (p : Text) (start : Nat) : List UInt8 → List (Except EncodingError BitRun)
  | [] => []
  | first :: rest =>
    match headRun p start first rest with
    | .error e => [.error e]
    | .ok run => .ok run :: runsFrom p run.stop (rest.dropWhile (· == first))
termination_by bs => bs.length
decreasing_by
  have := (List.dropWhile_suffix (l := rest) (· == first)).length_le
  simp only [List.length_cons]; omega

def runs (p : Text) : List (Except EncodingError BitRun) := runsFrom p 0 (bytes p)

/-- The bits that stand for a run; a variable must be bound to exactly as many. -/
def runBits (resolve : Char → Option Bits) (run : BitRun) : Except EncodingError UInt64 :=
  if run.isConstant then .ok (if run.ch == '1' then UInt64.ofNat (2 ^ run.length - 1) else 0)
  else
    match resolve run.ch with
    | none => .error (.invalidOperation (.unboundVariable run.ch))
    | some v =>
      if v.length.toNat = run.length then .ok v.value
      else .error (.invalidOperation (.variableSize run.ch run.length v.length.toNat))

/-- The width is checked before the run is looked up. -/
def appendRun (resolve : Char → Option Bits) (acc : UInt64 × Nat) (run : BitRun) :
    Except EncodingError (UInt64 × Nat) :=
  if Bits.maxLength < acc.2 + run.length then .error (.invalidOperation .widePattern)
  else
    match runBits resolve run with
    | .error e => .error e
    | .ok bits =>
      .ok (UInt64.ofNat (acc.1.toNat * 2 ^ run.length) ||| bits, acc.2 + run.length)

def appendRuns (resolve : Char → Option Bits) (acc : UInt64 × Nat) :
    List (Except EncodingError BitRun) → Except EncodingError (UInt64 × Nat)
  | [] => .ok acc
  | .error e :: _ => .error e
  | .ok run :: rest =>
    match appendRun resolve acc run with
    | .error e => .error e
    | .ok acc' => appendRuns resolve acc' rest

/-- Joins the runs, the first being the most significant. -/
def evaluate (p : Text) (resolve : Char → Option Bits) : Except EncodingError Bits :=
  match normalize p with
  | .error e => .error e
  | .ok n =>
    match appendRuns resolve (0, 0) (runs n) with
    | .error e => .error e
    | .ok (bits, length) => .ok ⟨bits, UInt8.ofNat length⟩

/-- Neighbours that a separator divides: they differ, and they are not both digits. -/
def isBoundary (c d : Char) : Bool := if isBit c then !isBit d else d != c

def separate : Text → Text
  | [] => []
  | [c] => [c]
  | c :: d :: rest =>
    if isBoundary c d then c :: '_' :: separate (d :: rest) else c :: separate (d :: rest)

/-- Eight constant digits are shown as a byte, other constants in binary. -/
def pretty (p : Text) : Text :=
  match constant? (strip p) with
  | some v =>
    if v.length = 8 then '0' :: 'x' :: Text.hexByte v.value.toUInt8 else '0' :: 'b' :: strip p
  | none => separate (strip p)

end Pattern
end X86Encoding
