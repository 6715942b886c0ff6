import X86Encoding.Json.Basic

/-!
The JSON form of a type: how a value is written, and which JSON values are read as one. A
structure is an object by the names of its fields, and is read from an array in the order of
the fields too. A choice is written by its name, alone or as the only key of an object that
holds what the choice carries.
-/

set_option autoImplicit false

namespace X86Encoding

/-- A field without a member in the object has the value `absent?`, if any. -/
class JsonForm (α : Type) where
  write : α → Json
  read? : Json → Option α
  absent? : Option α := none

namespace JsonForm

def readMember? {α : Type} [JsonForm α] : Option Json → Option α
  | some j => read? j
  | none => absent?

instance {α : Type} [JsonForm α] : JsonForm (Option α) where
  write
    | none => .null
    | some a => write a
  read?
    | .null => some none
    | j => (read? j).map some
  absent? := some none

def readItems? {α : Type} [JsonForm α] : List Json → Option (List α)
  | [] => some []
  | j :: rest =>
    match read? j, readItems? rest with
    | some a, some as => some (a :: as)
    | _, _ => none

instance {α : Type} [JsonForm α] : JsonForm (List α) where
  write as := .arr (as.map write)
  read?
    | .arr items => readItems? items
    | _ => none

instance : JsonForm Bool where
  write := .bool
  read?
    | .bool b => some b
    | _ => none

def readNat? (limit : Nat) : Json → Option Nat
  | .number mantissa 0 =>
    if 0 ≤ mantissa ∧ mantissa.toNat < limit then some mantissa.toNat else none
  | _ => none

instance : JsonForm UInt8 where
  write n := .nat n.toNat
  read? j := (readNat? (2 ^ 8) j).map UInt8.ofNat

instance : JsonForm UInt64 where
  write n := .nat n.toNat
  read? j := (readNat? (2 ^ 64) j).map UInt64.ofNat

instance : JsonForm Nat where
  write := .nat
  read? := readNat? (2 ^ 64)

instance : JsonForm Text where
  write := .str
  read?
    | .str t => some t
    | _ => none

def members? (names : List Text) : Json → Option (List (Option Json))
  | .obj members => some (names.map fun n => (members.find? (·.1 == n)).map (·.2))
  | .arr items => if items.length = names.length then some (items.map some) else none
  | _ => none

def choice? : Json → Option (Text × Option Json)
  | .str t => some (t, none)
  | .obj [(t, j)] => some (t, some j)
  | _ => none

/-- A choice that carries nothing may carry `null`. -/
def readName? {α : Type} (all : List α) (name : α → Text) (j : Json) : Option α :=
  match choice? j with
  | some (t, none) | some (t, some .null) => all.find? (name · == t)
  | _ => none

@[reducible] def ofNames {α : Type} (all : List α) (name : α → Text) : JsonForm α where
  write a := .str (name a)
  read? := readName? all name

end JsonForm
end X86Encoding
