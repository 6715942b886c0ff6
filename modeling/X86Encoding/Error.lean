import X86Encoding.Text.Quoted

/-!
What can go wrong: in reading texts and building descriptors (`EncodingError`), in decoding
bytes (`DecodeError`), and in one row of a table (`RowError`). Every error is a cause;
its wording is the function `message`.
-/

set_option autoImplicit false

namespace X86Encoding

inductive FormatFault where
  | emptyPattern
  | repeatedVariable
  | patternCharacter
  | vexKeyword
  | emptyVexField
  | unknownVexField (field : Text)
  | duplicateVexField (field : Text)
  | vexWithoutMap
  | multipleVex
  | unknownToken (token : Text)
  | emptyCode
  | conflictingModes
  | misplacedSimdPrefix
  | duplicateSimdPrefix
  | misplacedEscape
  | earlyModRM
  | duplicateModRM
  | largeImmediate
  | multipleVariableImmediates
  | trailingByte
  | registerModRM
  | misplacedConditionCode
  | lateVex
  | noMainByte
  | unknownOperandField
  | unknownTuple
  | unterminatedCode
  | codeColumn
  | emptyOperandType
  | operandCount
  | operandWithoutField
  | columnCount (found : Nat)
  | mnemonic
  deriving DecidableEq, Repr

def FormatFault.message : FormatFault → Text
  | .emptyPattern => "empty bit pattern".toList
  | .repeatedVariable => "duplicate bit pattern variable".toList
  | .patternCharacter => "invalid bit pattern character".toList
  | .vexKeyword => "expected vex, xop or evex".toList
  | .emptyVexField => "empty vex field".toList
  | .unknownVexField f => "unknown vex field '".toList ++ f ++ ['\'']
  | .duplicateVexField f => "duplicate vex field '".toList ++ f ++ ['\'']
  | .vexWithoutMap => "vex encoding without opcode map".toList
  | .multipleVex => "multiple VEX prefixes".toList
  | .unknownToken t => "unexpected NASM encoding token '".toList ++ t ++ ['\'']
  | .emptyCode => "empty encoding".toList
  | .conflictingModes => "conflicting mode requirements".toList
  | .misplacedSimdPrefix => "SIMD prefix out of place".toList
  | .duplicateSimdPrefix => "duplicate SIMD prefix".toList
  | .misplacedEscape => "opcode escape out of place".toList
  | .earlyModRM => "ModRM before the main opcode byte".toList
  | .duplicateModRM => "duplicate ModRM".toList
  | .largeImmediate => "immediate too large".toList
  | .multipleVariableImmediates => "multiple variable-size immediates".toList
  | .trailingByte => "unexpected trailing byte".toList
  | .registerModRM => "register ModRM must be a multiple of 8 from c0".toList
  | .misplacedConditionCode => "misplaced condition code byte".toList
  | .lateVex => "VEX prefix after the main opcode byte".toList
  | .noMainByte => "encoding has no main opcode byte".toList
  | .unknownOperandField => "unknown operand field".toList
  | .unknownTuple => "unknown EVEX tuple type".toList
  | .unterminatedCode => "unterminated code string".toList
  | .codeColumn => "invalid code string column".toList
  | .emptyOperandType => "empty operand type".toList
  | .operandCount => "operand count mismatch".toList
  | .operandWithoutField => "not all operands have an associated field".toList
  | .columnCount n => "expected 4 columns, found ".toList ++ Text.decimal n
  | .mnemonic => "invalid mnemonic".toList

inductive OperationFault where
  | fullPrefixList
  | emptyPrefixList
  | widePattern
  | unboundVariable (letter : Char)
  | variableSize (letter : Char) (expected found : Nat)
  | missingConditionCode
  | legacyEncoding
  | noEncoding (mnemonic : Text)
  deriving DecidableEq, Repr

def OperationFault.message : OperationFault → Text
  | .fullPrefixList => "legacy prefix list is at capacity".toList
  | .emptyPrefixList => "cannot remove from an empty legacy prefix list".toList
  | .widePattern => "bit pattern wider than 64 bits".toList
  | .unboundVariable c => "unbound bit variable '".toList ++ [c, '\'']
  | .variableSize c expected found =>
    "mismatched bit variable size for '".toList ++ [c] ++ "': expected ".toList ++
      Text.decimal expected ++ ", got ".toList ++ Text.decimal found
  | .missingConditionCode => "condition code byte requires a condition code".toList
  | .legacyEncoding => "legacy encoding has no VEX-family form".toList
  | .noEncoding mnemonic => mnemonic ++ " has no encoding".toList

inductive Argument where
  | length | bits | index | modRMReg | vexEncoding
  deriving DecidableEq, Repr

def Argument.name : Argument → Text
  | .length => "length".toList
  | .bits => "bits".toList
  | .index => "index".toList
  | .modRMReg => "modrm reg".toList
  | .vexEncoding => "vex encoding".toList

inductive Inconsistency where
  | vexDefaultMap
  | xopMap
  | wideVector
  | longAddress
  | shortAddress
  | promotedMode
  | sizedVex
  | vexSimdPrefix
  | legacyVector
  | legacyXopMap
  | embeddedRegister
  | fixedModRM
  | opcodeImmediate
  deriving DecidableEq, Repr

def Inconsistency.message : Inconsistency → Text
  | .vexDefaultMap => "VEX-family encodings cannot use the default opcode map".toList
  | .xopMap => "XOP maps are only reachable through an XOP prefix".toList
  | .wideVector => "512-bit vectors require EVEX".toList
  | .longAddress => "64-bit addressing implies 64-bit mode".toList
  | .shortAddress => "16-bit addressing implies a non 64-bit mode".toList
  | .promotedMode => "REX.W implies 64-bit mode".toList
  | .sizedVex => "word/dword operand size implies a legacy encoding".toList
  | .vexSimdPrefix => "VEX-family encodings imply a SIMD prefix".toList
  | .legacyVector => "vector size implies a VEX-family encoding".toList
  | .legacyXopMap => "XOP maps imply an XOP encoding".toList
  | .embeddedRegister => "main byte embedded register implies a multiple of 8".toList
  | .fixedModRM => "fixed ModRM byte implies a register form".toList
  | .opcodeImmediate => "imm8 opcode extension implies an 8-bit immediate".toList

inductive EncodingError where
  | format (fault : FormatFault) (input : Text)
  | invalidOperation (fault : OperationFault)
  | argumentRange (argument : Argument) (value : Nat)
  | inconsistent (fault : Inconsistency)
  deriving DecidableEq, Repr

/-- Values are shown as 64-bit two's complement, so one from 2^63 on shows as negative. -/
def EncodingError.message : EncodingError → Text
  | .format fault input => fault.message ++ [':', ' '] ++ Text.quoted input
  | .invalidOperation fault => "invalid operation: ".toList ++ fault.message
  | .argumentRange argument value =>
    argument.name ++ " out of range: ".toList ++ Text.signed (Int.bmod value (2 ^ 64))
  | .inconsistent fault => "inconsistent encoding: ".toList ++ fault.message

inductive PrefixFault where
  | rexNotLast
  | vectorAfterLegacy
  | malformed (lead : UInt8)
  deriving DecidableEq, Repr

def PrefixFault.message : PrefixFault → Text
  | .rexNotLast => "REX must immediately precede the opcode".toList
  | .vectorAfterLegacy => "VEX-family prefix after lock, 66, f2 or f3".toList
  | .malformed lead => "malformed ".toList ++ Text.hexByte lead ++ " prefix".toList

inductive DecodeError where
  | truncated (needed available : Nat)
  | noMatch (bytes : List UInt8)
  | ambiguous (candidates : List Text)
  | tooLong (length : Nat)
  | invalidPrefix (offset : Nat) (fault : PrefixFault)
  deriving DecidableEq, Repr

def DecodeError.message : DecodeError → Text
  | .truncated needed available =>
    "truncated instruction: need ".toList ++ Text.decimal needed ++ " bytes, have ".toList ++
      Text.decimal available
  | .noMatch bytes => "no matching opcode for ".toList ++ Text.bracketed (bytes.map Text.hexByte)
  | .ambiguous candidates =>
    "ambiguous match between ".toList ++ Text.bracketed (candidates.map Text.quoted)
  | .tooLong length =>
    "instruction too long: ".toList ++ Text.decimal length ++ " bytes".toList
  | .invalidPrefix offset fault =>
    "invalid prefix at offset ".toList ++ Text.decimal offset ++ [':', ' '] ++ fault.message

structure RowError where
  line : Nat
  error : EncodingError
  deriving DecidableEq, Repr

def RowError.message (e : RowError) : Text :=
  "line ".toList ++ Text.decimal e.line ++ [':', ' '] ++ e.error.message

end X86Encoding
