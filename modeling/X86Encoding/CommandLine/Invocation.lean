import X86Encoding.CommandLine.Argument
import X86Encoding.Mode
import X86Encoding.OperandKind

set_option autoImplicit false

namespace X86Encoding.CommandLine

inductive Command where
  | encoding (code : Text) (mode : Option Mode) (rm : Option OperandKind)
  | vex (text : Text)
  | bits (pattern : Text) (bindings : List (Char × Bits))
  | decode (bytes : Text) (table : Text) (mode : Mode) (all : Bool)
  | check (path : Text)
  deriving DecidableEq, Repr

structure Invocation where
  command : Command
  json : Bool
  verbose : Bool
  deriving DecidableEq, Repr

inductive CommandName where
  | encoding | vex | bits | decode | check
  deriving DecidableEq, Repr

inductive OptionName where
  | json | verbose | mode | rm | bind | table | all
  deriving DecidableEq, Repr

namespace OptionName

def long : OptionName → Text
  | .json => "json".toList
  | .verbose => "verbose".toList
  | .mode => "mode".toList
  | .rm => "rm".toList
  | .bind => "bind".toList
  | .table => "table".toList
  | .all => "all".toList

def short? : OptionName → Option Char
  | .json | .rm => none
  | .verbose => some 'v'
  | .mode => some 'm'
  | .bind => some 'b'
  | .table => some 't'
  | .all => some 'a'

def takesValue : OptionName → Bool
  | .json | .verbose | .all => false
  | .mode | .rm | .bind | .table => true

def global : List OptionName := [.json, .verbose]

end OptionName

namespace CommandName

def all : List CommandName := [.encoding, .vex, .bits, .decode, .check]

def text : CommandName → Text
  | .encoding => "encoding".toList
  | .vex => "vex".toList
  | .bits => "bits".toList
  | .decode => "decode".toList
  | .check => "check".toList

def options : CommandName → List OptionName
  | .encoding => OptionName.global ++ [.mode, .rm]
  | .vex | .check => OptionName.global
  | .bits => OptionName.global ++ [.bind]
  | .decode => OptionName.global ++ [.table, .mode, .all]

end CommandName

/-- Arguments sorted out: options with their values (empty for flags), and operands. -/
structure Items where
  options : List (OptionName × Text)
  operands : List Text
  deriving DecidableEq, Repr

namespace Items

def empty : Items := ⟨[], []⟩

def addOption (i : Items) (o : OptionName) (value : Text) : Items :=
  { i with options := i.options ++ [(o, value)] }

def addOperand (i : Items) (t : Text) : Items := { i with operands := i.operands ++ [t] }

def has (i : Items) (o : OptionName) : Bool := i.options.any (·.1 == o)

def values (i : Items) (o : OptionName) : List Text :=
  (i.options.filter (·.1 == o)).map (·.2)

def value? (i : Items) (o : OptionName) : Option Text := (i.values o).head?

def isOnce (i : Items) (o : OptionName) : Bool := o == .bind || (i.values o).length ≤ 1

end Items

/-- An argument that could be an option. A lone dash is not one. -/
def isDashed : Text → Bool
  | '-' :: _ :: _ => true
  | _ => false

/-- The flags of a cluster of letters, up to an option with a value, which takes the rest of
the letters, or the next argument if there are none. -/
def readCluster (allowed : List OptionName) (items : Items) :
    Text → Option (Items × Option OptionName)
  | [] => some (items, none)
  | c :: rest =>
    match allowed.find? fun o => o.short? == some c with
    | none => none
    | some o =>
      if o.takesValue then
        if rest = [] then some (items, some o)
        else some (items.addOption o ((['='].isPrefixOf? rest).getD rest), none)
      else readCluster allowed (items.addOption o []) rest

def readLong (allowed : List OptionName) (items : Items) (t : Text) :
    Option (Items × Option OptionName) :=
  match splitAtEquals? t with
  | some (name, value) =>
    match allowed.find? (·.long == name) with
    | some o => if o.takesValue then some (items.addOption o value, none) else none
    | none => none
  | none =>
    match allowed.find? (·.long == t) with
    | some o =>
      if o.takesValue then some (items, some o) else some (items.addOption o [], none)
    | none => none

/-- Sorts out arguments; `pending` is an option that waits for its value, which must not look
like an option. Behind two dashes there are operands only. -/
def sortItems (allowed : List OptionName) (items : Items) (pending : Option OptionName) :
    List Text → Option Items
  | [] => if pending.isSome then none else some items
  | arg :: rest =>
    match pending with
    | some o =>
      if isDashed arg then none else sortItems allowed (items.addOption o arg) none rest
    | none =>
      match arg with
      | ['-', '-'] => some { items with operands := items.operands ++ rest }
      | '-' :: '-' :: name =>
        (readLong allowed items name).bind fun (items', pending') =>
          sortItems allowed items' pending' rest
      | '-' :: c :: letters =>
        (readCluster allowed items (c :: letters)).bind fun (items', pending') =>
          sortItems allowed items' pending' rest
      | _ => sortItems allowed (items.addOperand arg) none rest

def readMode? (t : Text) : Option Mode := Mode.all.find? (·.text == t)

def readRmKind? (t : Text) : Option OperandKind :=
  if t = "mem".toList then some .memory
  else if t = "reg".toList then some .register
  else if t = "rm".toList then some .registerOrMemory
  else none

def readPath? (t : Text) : Option Text := if t = [] then none else some t

def optional? {α : Type} (read? : Text → Option α) : Option Text → Option (Option α)
  | none => some none
  | some t => (read? t).map some

def readCommand? (name : CommandName) (items : Items) : Option Command := do
  let [operand] := items.operands | none
  if !name.options.all items.isOnce then none
  else
    match name with
    | .encoding =>
      return .encoding operand (← optional? readMode? (items.value? .mode))
        (← optional? readRmKind? (items.value? .rm))
    | .vex => return .vex operand
    | .bits => return .bits operand (← (items.values .bind).mapM readBinding?)
    | .decode =>
      let table ← (items.value? .table).bind readPath?
      let mode ← optional? readMode? (items.value? .mode)
      return .decode operand table (mode.getD .x64) (items.has .all)
    | .check => return .check (← readPath? operand)

def readGlobal (items : Items) : List Text → Option (Items × CommandName × List Text)
  | [] => none
  | arg :: rest =>
    match arg with
    | '-' :: '-' :: name =>
      match readLong OptionName.global items name with
      | some (items', none) => readGlobal items' rest
      | _ => none
    | '-' :: c :: letters =>
      match readCluster OptionName.global items (c :: letters) with
      | some (items', none) => readGlobal items' rest
      | _ => none
    | _ => (CommandName.all.find? (·.text == arg)).map (items, ·, rest)

def Invocation.ofArguments? (args : List Text) : Option Invocation := do
  let (before, name, rest) ← readGlobal .empty args
  let items ← sortItems name.options .empty none rest
  let command ← readCommand? name items
  if OptionName.global.all before.isOnce then
    return ⟨command, before.has .json || items.has .json,
      before.has .verbose || items.has .verbose⟩
  else none

end X86Encoding.CommandLine
