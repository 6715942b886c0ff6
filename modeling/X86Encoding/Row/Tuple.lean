import X86Encoding.Error

set_option autoImplicit false

namespace X86Encoding

inductive TupleType where
  | fv | hv | fvm | t1s8 | t1s16 | t1s | t1f32 | t1f64 | t2 | t4 | t8 | hvm | qvm | ovm | m128
  | dup
  deriving DecidableEq, Repr

namespace TupleType

def all : List TupleType :=
  [.fv, .hv, .fvm, .t1s8, .t1s16, .t1s, .t1f32, .t1f64, .t2, .t4, .t8, .hvm, .qvm, .ovm, .m128,
    .dup]

def name : TupleType → Text
  | .fv => "Fv".toList
  | .hv => "Hv".toList
  | .fvm => "Fvm".toList
  | .t1s8 => "T1s8".toList
  | .t1s16 => "T1s16".toList
  | .t1s => "T1s".toList
  | .t1f32 => "T1f32".toList
  | .t1f64 => "T1f64".toList
  | .t2 => "T2".toList
  | .t4 => "T4".toList
  | .t8 => "T8".toList
  | .hvm => "Hvm".toList
  | .qvm => "Qvm".toList
  | .ovm => "Ovm".toList
  | .m128 => "M128".toList
  | .dup => "Dup".toList

def text (t : TupleType) : Text := Text.lower t.name

def ofText (t : Text) : Except EncodingError TupleType :=
  match all.find? (·.text == Text.lower t) with
  | some tuple => .ok tuple
  | none => .error (.format .unknownTuple t)

end TupleType
end X86Encoding
