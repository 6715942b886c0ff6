import X86Encoding.Text

set_option autoImplicit false

namespace X86Encoding.Text

def decimal (n : Nat) : Text := Nat.toDigits 10 n

def signed (n : Int) : Text :=
  if n < 0 then '-' :: decimal n.natAbs else decimal n.natAbs

def hex (n : Nat) : Text := Nat.toDigits 16 n

def hexByte (b : UInt8) : Text := [Nat.digitChar (b.toNat / 16), Nat.digitChar (b.toNat % 16)]

def binary (width n : Nat) : Text := (Nat.toDigits 2 n).leftpad width '0'

def digitValue? (c : Char) : Option Nat :=
  if isDigit c then some (c.toNat - '0'.toNat)
  else if 'a' ≤ c && c ≤ 'f' then some (c.toNat - 'a'.toNat + 10)
  else if 'A' ≤ c && c ≤ 'F' then some (c.toNat - 'A'.toNat + 10)
  else none

def isHexDigit (c : Char) : Bool := (digitValue? c).isSome

inductive NumeralFault where
  | empty | digit | overflow
  deriving DecidableEq, Repr

def NumeralFault.message : NumeralFault → Text
  | .empty => "cannot parse integer from empty string".toList
  | .digit => "invalid digit found in string".toList
  | .overflow => "number too large to fit in target type".toList

def digitIn (base : Nat) (c : Char) : Option Nat := (digitValue? c).filter (· < base)

/-- Reads from the most significant digit on, and stops at the first fault. -/
def readDigits (base limit : Nat) (value : Nat) : Text → Except NumeralFault Nat
  | [] => .ok value
  | c :: rest =>
    match digitIn base c with
    | none => .error .digit
    | some d =>
      if value * base + d < limit then readDigits base limit (value * base + d) rest
      else .error .overflow

/-- A number below `limit` in base `base`, with an optional plus sign before its digits. -/
def readNumber (base limit : Nat) : Text → Except NumeralFault Nat
  | [] => .error .empty
  | ['+'] => .error .digit
  | '+' :: digits => readDigits base limit 0 digits
  | digits => readDigits base limit 0 digits

end X86Encoding.Text
