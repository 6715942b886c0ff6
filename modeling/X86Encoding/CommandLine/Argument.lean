import X86Encoding.Bits
import X86Encoding.Error

set_option autoImplicit false

namespace X86Encoding.CommandLine

inductive HexFault where
  | shape
  | digits (pair : Text) (fault : Text.NumeralFault)
  deriving DecidableEq, Repr

def dropHexMark (t : Text) : Text := ("0x".toList.isPrefixOf? t).getD t

/-- The words of a text, without their marks, in one piece. -/
def hexDigits (t : Text) : Text := (Text.words t).flatMap dropHexMark

def isAscii (t : Text) : Bool := t.all fun c => c.toNat < 128

/-- Each pair is read as a number, so a plus sign may stand for its first digit. -/
def readPairs : Text → Except HexFault (List UInt8)
  | h :: l :: rest =>
    match Text.readNumber 16 256 [h, l] with
    | .error fault => .error (.digits [h, l] fault)
    | .ok n =>
      match readPairs rest with
      | .error e => .error e
      | .ok bytes => .ok (UInt8.ofNat n :: bytes)
  | _ => .ok []

def readHexBytes (t : Text) : Except HexFault (List UInt8) :=
  let digits := hexDigits t
  if isAscii digits && digits.length % 2 == 0 then readPairs digits else .error .shape

def bytesText (bytes : List UInt8) : Text := Text.joinWith [' '] (bytes.map Text.hexByte)

def splitAtEquals? (t : Text) : Option (Text × Text) :=
  match t.dropWhile (· != '=') with
  | [] => none
  | _ :: value => some (t.takeWhile (· != '='), value)

/-- The bits of a binding: binary digits with separators, perhaps behind `0b`. Their number is
the width of the value; a plus sign before them counts. -/
def readBits? (t : Text) : Option Bits :=
  let digits := (("0b".toList.isPrefixOf? t).getD t).filter (· ≠ '_')
  match Text.readNumber 2 (2 ^ 64) digits with
  | .error _ => none
  | .ok n =>
    if digits.length < 256 then
      (Bits.make (UInt64.ofNat n) (UInt8.ofNat digits.length)).toOption
    else none

def readBinding? (t : Text) : Option (Char × Bits) :=
  match splitAtEquals? t with
  | some ([letter], value) =>
    if Text.isLower letter then (readBits? value).map (letter, ·) else none
  | _ => none

end X86Encoding.CommandLine
