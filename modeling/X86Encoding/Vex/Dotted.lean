import X86Encoding.Vex.Descriptor

/-!
Dotted notation of vector prefix descriptors, such as `vex.nds.256.66.0f38.w1`. After the
keyword the fields may come in any order, each kind at most once, and the map is required;
the printed form has them in one order and always names the vector size and W.
-/

set_option autoImplicit false

namespace X86Encoding

inductive VexField where
  | role (r : RegisterRole)
  | vectorSize (s : Option VectorSize)
  | simd (p : SimdPrefix)
  | map (m : OpcodeMap)
  | w (b : Option Bool)
  deriving DecidableEq, Repr

namespace VexField

def spellings : List (Text × VexField) :=
  [("nds".toList, .role .source), ("ndd".toList, .role .dest), ("dds".toList, .role .secondSource),
    ("lig".toList, .vectorSize none),
    ("128".toList, .vectorSize (some .v128)), ("l0".toList, .vectorSize (some .v128)),
    ("lz".toList, .vectorSize (some .v128)),
    ("256".toList, .vectorSize (some .v256)), ("l1".toList, .vectorSize (some .v256)),
    ("512".toList, .vectorSize (some .v512)), ("l2".toList, .vectorSize (some .v512)),
    ("np".toList, .simd .np), ("p0".toList, .simd .np),
    ("66".toList, .simd .p66), ("f3".toList, .simd .pF3), ("f2".toList, .simd .pF2),
    ("0f".toList, .map .escape0F), ("0f38".toList, .map .escape0F38),
    ("0f3a".toList, .map .escape0F3A),
    ("m8".toList, .map .xop8), ("map8".toList, .map .xop8),
    ("m9".toList, .map .xop9), ("map9".toList, .map .xop9),
    ("m10".toList, .map .xop10), ("map10".toList, .map .xop10),
    ("wig".toList, .w none), ("w0".toList, .w (some false)), ("w1".toList, .w (some true))]

def ofText? (t : Text) : Option VexField := (spellings.find? fun s => s.1 == t).map (·.2)

end VexField

/-- The fields met so far, one place for each kind. -/
structure VexSlots where
  role : Option RegisterRole
  vectorSize : Option (Option VectorSize)
  simd : Option SimdPrefix
  map : Option OpcodeMap
  w : Option (Option Bool)
  deriving DecidableEq, Repr

namespace VexSlots

def empty : VexSlots := ⟨none, none, none, none, none⟩

/-- Nothing if the place is taken. -/
def put? (s : VexSlots) : VexField → Option VexSlots
  | .role r => if s.role.isSome then none else some { s with role := some r }
  | .vectorSize v => if s.vectorSize.isSome then none else some { s with vectorSize := some v }
  | .simd p => if s.simd.isSome then none else some { s with simd := some p }
  | .map m => if s.map.isSome then none else some { s with map := some m }
  | .w b => if s.w.isSome then none else some { s with w := some b }

def fill (s : VexSlots) : List Text → Except FormatFault VexSlots
  | [] => .ok s
  | part :: rest =>
    match VexField.ofText? part with
    | none => .error (if part = [] then .emptyVexField else .unknownVexField part)
    | some field =>
      match s.put? field with
      | none => .error (.duplicateVexField part)
      | some s' => s'.fill rest

end VexSlots

namespace VexDescriptor

def sizeField : Option VectorSize → Text
  | none => "lig".toList
  | some .v128 => "128".toList
  | some .v256 => "256".toList
  | some .v512 => "512".toList

def wField : Option Bool → Text
  | none => "wig".toList
  | some false => "w0".toList
  | some true => "w1".toList

def simdField? (p : SimdPrefix) : Option Text := p.byte?.map Text.hexByte

def parts (f : VexFields) : List Text :=
  [f.kind.keyword] ++ (f.role.map RegisterRole.token).toList ++ [sizeField f.vectorSize] ++
    (simdField? f.simd).toList ++ f.map.vexName?.toList ++ [wField f.w]

def text (v : VexDescriptor) : Text := Text.joinWith ['.'] (parts v.fields)

def debug (v : VexDescriptor) : Text := "VexEncoding(".toList ++ v.text ++ [')']

def kindOfKeyword? (t : Text) : Option VexKind := VexKind.all.find? (·.keyword == t)

def ofText (t : Text) : Except EncodingError VexDescriptor :=
  match (Text.lower t).splitOn '.' with
  | [] => .error (.format .vexKeyword t)
  | keyword :: parts =>
    match kindOfKeyword? keyword with
    | none => .error (.format .vexKeyword t)
    | some kind =>
      match VexSlots.empty.fill parts with
      | .error fault => .error (.format fault t)
      | .ok s =>
        match s.map with
        | none => .error (.format .vexWithoutMap t)
        | some map => make ⟨kind, s.role, s.vectorSize.join, s.simd.getD .np, map, s.w.join⟩

end VexDescriptor
end X86Encoding
