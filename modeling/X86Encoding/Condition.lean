import X86Encoding.Text

set_option autoImplicit false

namespace X86Encoding

inductive Condition where
  | overflow | notOverflow | below | aboveOrEqual | equal | notEqual | belowOrEqual | above
  | sign | notSign | parity | notParity | less | greaterOrEqual | lessOrEqual | greater
  deriving DecidableEq, Repr

namespace Condition

def all : List Condition :=
  [.overflow, .notOverflow, .below, .aboveOrEqual, .equal, .notEqual, .belowOrEqual, .above,
    .sign, .notSign, .parity, .notParity, .less, .greaterOrEqual, .lessOrEqual, .greater]

def name : Condition → Text
  | .overflow => "Overflow".toList
  | .notOverflow => "NotOverflow".toList
  | .below => "Below".toList
  | .aboveOrEqual => "AboveOrEqual".toList
  | .equal => "Equal".toList
  | .notEqual => "NotEqual".toList
  | .belowOrEqual => "BelowOrEqual".toList
  | .above => "Above".toList
  | .sign => "Sign".toList
  | .notSign => "NotSign".toList
  | .parity => "Parity".toList
  | .notParity => "NotParity".toList
  | .less => "Less".toList
  | .greaterOrEqual => "GreaterOrEqual".toList
  | .lessOrEqual => "LessOrEqual".toList
  | .greater => "Greater".toList

def code : Condition → UInt8
  | .overflow => 0
  | .notOverflow => 1
  | .below => 2
  | .aboveOrEqual => 3
  | .equal => 4
  | .notEqual => 5
  | .belowOrEqual => 6
  | .above => 7
  | .sign => 8
  | .notSign => 9
  | .parity => 10
  | .notParity => 11
  | .less => 12
  | .greaterOrEqual => 13
  | .lessOrEqual => 14
  | .greater => 15

def ofCode (n : UInt8) : Condition := (all.find? (·.code == n &&& 0xF)).getD .overflow

/-- The condition that holds exactly when this one does not. -/
def negate (c : Condition) : Condition := ofCode (c.code ^^^ 1)

def ending : Condition → Text
  | .overflow => "o".toList
  | .notOverflow => "no".toList
  | .below => "b".toList
  | .aboveOrEqual => "ae".toList
  | .equal => "e".toList
  | .notEqual => "ne".toList
  | .belowOrEqual => "be".toList
  | .above => "a".toList
  | .sign => "s".toList
  | .notSign => "ns".toList
  | .parity => "p".toList
  | .notParity => "np".toList
  | .less => "l".toList
  | .greaterOrEqual => "ge".toList
  | .lessOrEqual => "le".toList
  | .greater => "g".toList

end Condition
end X86Encoding
