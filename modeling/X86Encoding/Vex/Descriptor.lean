import X86Encoding.Checked
import X86Encoding.Prefix.Extended

/-!
What an opcode asks of a vector prefix. A descriptor is a consistent choice of fields; it has
a 16-bit form, from which it is read back.
-/

set_option autoImplicit false

namespace X86Encoding

/-- What the register in `vvvv` is for. -/
inductive RegisterRole where
  | source | secondSource | dest
  deriving DecidableEq, Repr

namespace RegisterRole

def all : List RegisterRole := [.source, .secondSource, .dest]

def name : RegisterRole → Text
  | .source => "Source".toList
  | .secondSource => "SecondSource".toList
  | .dest => "Dest".toList

def token : RegisterRole → Text
  | .source => "nds".toList
  | .secondSource => "dds".toList
  | .dest => "ndd".toList

end RegisterRole

/-- No role means that `vvvv` is unused; no vector size and no W that any value will do. -/
structure VexFields where
  kind : VexKind
  role : Option RegisterRole
  vectorSize : Option VectorSize
  simd : SimdPrefix
  map : OpcodeMap
  w : Option Bool
  deriving DecidableEq, Repr

namespace VexFields

def plain (kind : VexKind) (map : OpcodeMap) : VexFields := ⟨kind, none, none, .np, map, none⟩

def rules (f : VexFields) : List (Bool × EncodingError) :=
  [(f.map != .primary, .inconsistent .vexDefaultMap),
    ((f.kind == .xop) == f.map.isXop, .inconsistent .xopMap),
    (f.vectorSize != some .v512 || f.kind == .evex, .inconsistent .wideVector)]

def fault? (f : VexFields) : Option EncodingError := firstFault? f.rules

end VexFields

abbrev VexDescriptor := Checked VexFields.fault?

namespace VexDescriptor

abbrev make (f : VexFields) : Except EncodingError VexDescriptor := Checked.make f

/-- The role cannot be seen in the bytes of a prefix and stays open. -/
def ofVector (p : VectorPrefix) : Except EncodingError VexDescriptor :=
  make ⟨p.kind, none, some p.vectorSize, p.simd, p.map, some p.w⟩

def kindCode : VexKind → Nat
  | .vex => 0
  | .xop => 1
  | .evex => 2

def roleCode : Option RegisterRole → Nat
  | none => 0
  | some .source => 1
  | some .secondSource => 2
  | some .dest => 3

def sizeCode : Option VectorSize → Nat
  | none => 0
  | some s => s.l + 1

def wCode : Option Bool → Nat
  | none => 0
  | some false => 1
  | some true => 2

/-- From the low end: two bits each for kind, role, vector size and SIMD prefix, four for the
map, and two for W. -/
def bits (v : VexDescriptor) : Nat :=
  kindCode v.fields.kind + 4 * roleCode v.fields.role + 16 * sizeCode v.fields.vectorSize +
    64 * v.fields.simd.pp + 256 * v.fields.map.index + 4096 * wCode v.fields.w

def kindOfCode? (n : Nat) : Option VexKind := VexKind.all[n]?

def roleOfCode (n : Nat) : Option RegisterRole := if n = 0 then none else RegisterRole.all[n - 1]?

def sizeOfCode (n : Nat) : Option VectorSize := if n = 0 then none else VectorSize.ofL? (n - 1)

def wOfCode? (n : Nat) : Option (Option Bool) := [none, some false, some true][n]?

/-- Codes that stand for nothing are refused, as are bits above the last field. -/
def ofBits (n : Nat) : Except EncodingError VexDescriptor :=
  match kindOfCode? (n % 4), OpcodeMap.ofIndex? (n / 256 % 16), wOfCode? (n / 4096) with
  | some kind, some map, some w =>
    make ⟨kind, roleOfCode (n / 4 % 4), sizeOfCode (n / 16 % 4), .ofPP (n / 64 % 4), map, w⟩
  | _, _, _ => .error (.argumentRange .vexEncoding n)

end VexDescriptor
end X86Encoding
