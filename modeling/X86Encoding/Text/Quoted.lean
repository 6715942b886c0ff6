import X86Encoding.Text.Numeral
import X86Encoding.Text.Unprintable

/-!
Quoted texts, as error messages show them. A double quote and a backslash are escaped, an
apostrophe is not, and what would not be seen on a screen is written by its code point.
-/

set_option autoImplicit false

namespace X86Encoding.Text

def codePoint (c : Char) : Text := "\\u\x7b".toList ++ hex c.toNat ++ ['\x7d']

def escape (c : Char) : Text :=
  if c == '"' || c == '\\' then ['\\', c]
  else if c == '\n' then ['\\', 'n']
  else if c == '\x0d' then ['\\', 'r']
  else if c == '\t' then ['\\', 't']
  else if c == '\x00' then ['\\', '0']
  else if isUnprintable c then codePoint c
  else [c]

def quoted (t : Text) : Text := '"' :: t.flatMap escape ++ ['"']

def bracketed (items : List Text) : Text :=
  '[' :: joinWith [',', ' '] items ++ [']']

end X86Encoding.Text
