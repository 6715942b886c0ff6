import X86Encoding.Text.Numeral

set_option autoImplicit false

namespace X86Encoding

/-- Keywords that do not bear on the shape of the opcode, save `f2i` and `f3i`, which are
SIMD prefixes. -/
inductive Marker where
  | hle | hleXr | hleNl | noHi | noRep | repe | wait | jmp8 | jcc8 | jLen | mustRep | mustRepNe
  | vsibX | vsibY | vsibZ | f2i | f3i | resb | noF3 | noRexB | noRexX | noRexR
  deriving DecidableEq, Repr

namespace Marker

def all : List Marker :=
  [.hle, .hleXr, .hleNl, .noHi, .noRep, .repe, .wait, .jmp8, .jcc8, .jLen, .mustRep, .mustRepNe,
    .vsibX, .vsibY, .vsibZ, .f2i, .f3i, .resb, .noF3, .noRexB, .noRexX, .noRexR]

def name : Marker → Text
  | .hle => "Hle".toList
  | .hleXr => "HleXr".toList
  | .hleNl => "HleNl".toList
  | .noHi => "NoHi".toList
  | .noRep => "NoRep".toList
  | .repe => "Repe".toList
  | .wait => "Wait".toList
  | .jmp8 => "Jmp8".toList
  | .jcc8 => "Jcc8".toList
  | .jLen => "JLen".toList
  | .mustRep => "MustRep".toList
  | .mustRepNe => "MustRepNe".toList
  | .vsibX => "VsibX".toList
  | .vsibY => "VsibY".toList
  | .vsibZ => "VsibZ".toList
  | .f2i => "F2i".toList
  | .f3i => "F3i".toList
  | .resb => "Resb".toList
  | .noF3 => "NoF3".toList
  | .noRexB => "NoRexB".toList
  | .noRexX => "NoRexX".toList
  | .noRexR => "NoRexR".toList

def spelling (m : Marker) : Text := Text.lower m.name

end Marker

inductive Token where
  | byte (b : UInt8)
  /-- A register in the low three bits. -/
  | bytePlusRegister (b : UInt8)
  /-- A condition code in the low four bits. -/
  | bytePlusCondition (b : UInt8)
  /-- A ModRM byte with a fixed middle field. -/
  | modRMReg (reg : UInt8)
  | modRM
  /-- The place of the vector prefix. -/
  | vex
  /-- A register in an immediate byte. -/
  | is4
  | ib | ibSigned | ibUnsigned | iw | iwd | id | idSigned | iwdq | iq | rel8 | rel | seg
  | o16 | o32 | o64 | o64NoW | operandDefault | a16 | a32 | a64 | addressDefault
  | noSimd | rexW | noRexW | x64 | ia32 | escape0F38 | escape0F3A
  | marker (m : Marker)
  deriving DecidableEq, Repr

namespace Token

def plainKeywords : List Token :=
  [.modRM, .is4, .ib, .ibSigned, .ibUnsigned, .iw, .iwd, .id, .idSigned, .iwdq, .iq, .rel8, .rel,
    .seg, .o16, .o32, .o64, .o64NoW, .operandDefault, .a16, .a32, .a64, .addressDefault, .noSimd,
    .rexW, .noRexW, .x64, .ia32, .escape0F38, .escape0F3A]

def keywords : List Token := plainKeywords ++ Marker.all.map .marker

def spelling : Token → Text
  | .byte b => Text.hexByte b
  | .bytePlusRegister b => Text.hexByte b ++ "+r".toList
  | .bytePlusCondition b => Text.hexByte b ++ "+c".toList
  | .modRMReg reg => '/' :: Text.decimal reg.toNat
  | .modRM => "/r".toList
  | .vex => "vex".toList
  | .is4 => "/is4".toList
  | .ib => "ib".toList
  | .ibSigned => "ib,s".toList
  | .ibUnsigned => "ib,u".toList
  | .iw => "iw".toList
  | .iwd => "iwd".toList
  | .id => "id".toList
  | .idSigned => "id,s".toList
  | .iwdq => "iwdq".toList
  | .iq => "iq".toList
  | .rel8 => "rel8".toList
  | .rel => "rel".toList
  | .seg => "seg".toList
  | .o16 => "o16".toList
  | .o32 => "o32".toList
  | .o64 => "o64".toList
  | .o64NoW => "o64nw".toList
  | .operandDefault => "odf".toList
  | .a16 => "a16".toList
  | .a32 => "a32".toList
  | .a64 => "a64".toList
  | .addressDefault => "adf".toList
  | .noSimd => "np".toList
  | .rexW => "rex.w".toList
  | .noRexW => "norexw".toList
  | .x64 => "x64".toList
  | .ia32 => "ia32".toList
  | .escape0F38 => "0f38".toList
  | .escape0F3A => "0f3a".toList
  | .marker m => m.spelling

def name : Token → Text
  | .byte _ => "Byte".toList
  | .bytePlusRegister _ => "BytePlusRegister".toList
  | .bytePlusCondition _ => "BytePlusConditionCode".toList
  | .modRMReg _ => "ModRmFixedReg".toList
  | .modRM => "ModRm".toList
  | .vex => "Vex".toList
  | .is4 => "Is4".toList
  | .ib => "Ib".toList
  | .ibSigned => "IbSigned".toList
  | .ibUnsigned => "IbUnsigned".toList
  | .iw => "Iw".toList
  | .iwd => "Iwd".toList
  | .id => "Id".toList
  | .idSigned => "IdSigned".toList
  | .iwdq => "Iwdq".toList
  | .iq => "Iq".toList
  | .rel8 => "Rel8".toList
  | .rel => "Rel".toList
  | .seg => "Seg".toList
  | .o16 => "O16".toList
  | .o32 => "O32".toList
  | .o64 => "O64".toList
  | .o64NoW => "O64NoW".toList
  | .operandDefault => "OperandDefault".toList
  | .a16 => "A16".toList
  | .a32 => "A32".toList
  | .a64 => "A64".toList
  | .addressDefault => "AddressDefault".toList
  | .noSimd => "NoSimdPrefix".toList
  | .rexW => "RexW".toList
  | .noRexW => "NoRexW".toList
  | .x64 => "X64".toList
  | .ia32 => "Ia32".toList
  | .escape0F38 => "Escape0F38".toList
  | .escape0F3A => "Escape0F3A".toList
  | .marker _ => "Misc".toList

def debug (t : Token) : Text :=
  match t with
  | .byte b | .bytePlusRegister b | .bytePlusCondition b | .modRMReg b =>
    t.name ++ '(' :: Text.decimal b.toNat ++ [')']
  | .marker m => t.name ++ '(' :: m.name ++ [')']
  | _ => t.name

def immediateBytes : Token → UInt8
  | .ib | .ibSigned | .ibUnsigned | .rel8 | .is4 => 1
  | .iw | .seg => 2
  | .id | .idSigned => 4
  | .iq => 8
  | _ => 0

def ofKeyword? (t : Text) : Option Token := keywords.find? (·.spelling == Text.lower t)

def ofByteText? : Text → Option Token
  | h :: l :: rest =>
    match Text.digitValue? h, Text.digitValue? l with
    | some hv, some lv =>
      let b := UInt8.ofNat (hv * 16 + lv)
      if rest = [] then some (.byte b)
      else if Text.lower rest = "+r".toList then some (.bytePlusRegister b)
      else if Text.lower rest = "+c".toList then some (.bytePlusCondition b)
      else none
    | _, _ => none
  | _ => none

def ofDigitText? : Text → Option Token
  | ['/', d] =>
    if '0' ≤ d && d ≤ '7' then some (.modRMReg (UInt8.ofNat (d.toNat - '0'.toNat))) else none
  | _ => none

def ofWord? (t : Text) : Option Token :=
  ((ofKeyword? t).or (ofByteText? t)).or (ofDigitText? t)

end Token
end X86Encoding
