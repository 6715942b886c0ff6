import X86Encoding.Table.Decode

set_option autoImplicit false

namespace X86Encoding.OpcodeTable

def answerSize : Except DecodeError Instruction → Nat
  | .ok d => d.length
  | .error _ => 1

/-- The answers from `offset` on, with the place of each. At least one byte is left behind at
each step. -/
def sweepFrom (t : OpcodeTable) (mode : Mode) (offset : Nat) :
    List UInt8 → List (Nat × Except DecodeError Instruction)
  | [] => []
  | b :: rest =>
    let answer := t.decode (b :: rest) mode
    (offset, answer) ::
      t.sweepFrom mode (offset + answerSize answer) (rest.drop (answerSize answer - 1))
termination_by bytes => bytes.length
decreasing_by simp only [List.length_drop, List.length_cons]; omega

def sweep (t : OpcodeTable) (bytes : List UInt8) (mode : Mode) :
    List (Nat × Except DecodeError Instruction) :=
  t.sweepFrom mode 0 bytes

end X86Encoding.OpcodeTable
