import X86Encoding.Code.Token
import X86Encoding.Vex.Dotted

set_option autoImplicit false

namespace X86Encoding

/-- In a code string that was read, a descriptor is there exactly when a token marks its
place. -/
structure Code where
  tokens : List Token
  vex : Option VexDescriptor
  deriving DecidableEq, Repr

namespace Code

def word (vex : Option VexDescriptor) (t : Token) : Text :=
  match t, vex with
  | .vex, some v => v.text
  | _, _ => t.spelling

def text (c : Code) : Text := Text.joinWith [' '] (c.tokens.map (word c.vex))

def isVexWord (t : Text) : Bool :=
  VexKind.all.any fun kind => (kind.keyword ++ ['.']).isPrefixOf (Text.lower t)

/-- Reads words from left to right behind tokens and a descriptor already there. A second
descriptor is refused before it is read. -/
def readWords (t : Text) (code : Code) : List Text → Except EncodingError Code
  | [] => .ok code
  | word :: rest =>
    match Token.ofWord? word with
    | some token => readWords t { code with tokens := code.tokens ++ [token] } rest
    | none =>
      if isVexWord word then
        if code.vex.isSome then .error (.format .multipleVex t)
        else
          match VexDescriptor.ofText word with
          | .error e => .error e
          | .ok v => readWords t ⟨code.tokens ++ [.vex], some v⟩ rest
      else .error (.format (.unknownToken word) t)

def ofText (t : Text) : Except EncodingError Code :=
  match readWords t ⟨[], none⟩ (Text.words t) with
  | .error e => .error e
  | .ok code => if code.tokens = [] then .error (.format .emptyCode t) else .ok code

end Code
end X86Encoding
