import Polish.Toml.Document

/-!
# The table of a TOML document

The items of a document put together: every key of the outermost table with its value and line. No
key may be used twice, and no table may have the name of a key. A table that only came into being as
part of a longer name, or that is a value, may be given again; it keeps what it holds.

A table inside an array is one of several tables with the name of the array's key, as if it had a
head of its own; the array itself is then not kept.

* `Toml.Role`: what a key stands for.
* `Toml.Entry`: a key with its role and line.
* `Toml.Trouble`: why a text has no table.
* `Toml.Assembly`: the tables that are put together.
* `Toml.table`: the outermost table of a text.
-/

namespace Polish.Toml

/-- What a path stands for. -/
inductive Role where
  | value (v : Value)
  /-- A table; only one with a head of its own may not be given again. -/
  | table (headed : Bool)
  /-- One or more tables of the same name. -/
  | tables
deriving Repr

/-- A path that is in use. -/
structure Entry where
  path : List Bytes
  line : Nat
  role : Role
deriving Repr

/-- Why a text has no table, or a table has not the wanted contents. -/
structure Trouble where
  line : Nat
  /-- The field that is concerned. -/
  field : Option Bytes
  problem : Bytes
deriving DecidableEq, Repr

namespace Trouble

/-- The text of the trouble. -/
def message (t : Trouble) : Bytes :=
  let field : Bytes := match t.field with
    | none => []
    | some name => "(" ++ name ++ ") "
  "line " ++ Decimal.ofNat t.line ++ ": " ++ field ++ t.problem

/-- A text whose escapes stand for nothing. -/
def badEscape (line : Nat) : Trouble := ⟨line, none, "invalid syntax"⟩

end Trouble

/-! ### Names -/

/-- The steps of a name: points divide them, except between quotes; quotes are dropped, and so are
blanks outside of them. `step` is read so far, the last byte first. -/
def stepsFrom (quoted : Bool) (step : Bytes) : Bytes → List Bytes
  | [] => [step.reverse]
  | b :: rest =>
    if b = 0x2E && !quoted then step.reverse :: stepsFrom quoted [] rest
    else if b = 0x22 then stepsFrom (!quoted) step rest
    else if (b = 0x20 || b = 0x09) && !quoted then stepsFrom quoted step rest
    else stepsFrom quoted (b :: step) rest

/-- The steps of a name. -/
def steps (name : Bytes) : List Bytes := stepsFrom false [] name

/-- A number in hexadecimal. -/
def hexOf (n : Nat) : Bytes := (Nat.toDigits 16 n).map Bytes.ascii

/-! ### Putting tables together -/

/-- The entries so far, and the table that pairs go to. -/
structure Assembly where
  entries : List Entry
  current : List Bytes
deriving Repr

namespace Assembly

/-- Before the first item. -/
def start : Assembly := ⟨[], []⟩

/-- The entry of a path. -/
def find? (a : Assembly) (path : List Bytes) : Option Entry := a.entries.find? (·.path = path)

/-- Adds an entry. -/
def add (a : Assembly) (path : List Bytes) (line : Nat) (role : Role) : Assembly :=
  { a with entries := a.entries ++ [⟨path, line, role⟩] }

/-- The entry of a path is replaced. -/
def replace (a : Assembly) (path : List Bytes) (line : Nat) (role : Role) : Assembly :=
  { a with entries := a.entries.map fun e => if e.path = path then ⟨path, line, role⟩ else e }

/-- A table around another is there, or comes into being. A key cannot be around a table. -/
def enter (line : Nat) (a : Assembly) (path : List Bytes) : Except Trouble Assembly :=
  match a.find? path with
  | none => .ok (a.add path line (.table false))
  | some e =>
    match e.role with
    | .value _ => .error ⟨line, none, "key `" ++ path.getLastD [] ++ "' is in conflict with line "
        ++ Decimal.ofNat e.line⟩
    | .table _ | .tables => .ok a

/-- The tables around a path, from the outermost inwards, below the path `base`. -/
def around (base steps : List Bytes) : List (List Bytes) :=
  (List.range (steps.length - 1)).map fun n => base ++ steps.take (n + 1)

/-- Starts a table below the path `base`. -/
def openTable (a : Assembly) (line : Nat) (headed : Bool) (base : List Bytes) (name : Bytes) :
    Except Trouble Assembly := do
  let path := base ++ steps name
  let a ← (around base (steps name)).foldlM (enter line) a
  let clash := fun (other : Bytes) => throw
    (Trouble.mk line none ("table `" ++ name ++ "' is in conflict with " ++ other))
  match a.find? path with
  | none => return { a.add path line (.table headed) with current := path }
  | some e =>
    match e.role with
    | .table false => return { a.replace path line (.table headed) with current := path }
    | .table true => clash ("table in line " ++ Decimal.ofNat e.line)
    | .tables => clash ("array table in line " ++ Decimal.ofNat e.line)
    | .value _ => clash ("line " ++ Decimal.ofNat e.line)

/-- Starts a table that is one of several, below the path `base`. What the tables before it hold
cannot be reached any more. -/
def openNext (a : Assembly) (line : Nat) (base : List Bytes) (name : Bytes) :
    Except Trouble Assembly := do
  let path := base ++ steps name
  let a ← (around base (steps name)).foldlM (enter line) a
  let clash := fun (other : Bytes) => throw
    (Trouble.mk line none ("array table `" ++ name ++ "' is in conflict with " ++ other))
  match a.find? path with
  | none => return { a.add path line .tables with current := path }
  | some e =>
    match e.role with
    | .tables =>
      return ⟨a.entries.filter fun x => x.path = path || !path.isPrefixOf x.path, path⟩
    | .table _ => clash ("table in line " ++ Decimal.ofNat e.line)
    | .value _ => clash ("line " ++ Decimal.ofNat e.line)

/-- Adds a pair to the current table. -/
def addPair (a : Assembly) (line : Nat) (key : Bytes) (value : Value) : Except Trouble Assembly :=
  let path := a.current ++ [key]
  match a.find? path with
  | none => .ok (a.add path line (.value value))
  | some e =>
    let subject := "key `" ++ key ++ "' is in conflict "
    .error ⟨line, none, match e.role with
      | .value _ => subject ++ "with line " ++ hexOf e.line ++ "d"
      | .table _ => subject ++ "with table in line " ++ Decimal.ofNat e.line
      | .tables => "BUG: " ++ subject ++ "but it's unknown type `[]*ast.Table'"⟩

/-! ### Values -/

mutual

/-- Takes the tables in that a value holds, under the name of its key. Does it hold any? -/
def settle (inArray : Bool) (name : Bytes) (a : Assembly) :
    Value → Except Trouble (Assembly × Bool)
  | .string line none => .error (.badEscape line)
  | .string _ (some _) | .integer _ | .float _ | .boolean _ | .datetime _ => .ok (a, false)
  | .array items => settleAll name a items
  | .table line pairs => do
    let outer := a.current
    let a ← if inArray then a.openNext line outer name else a.openTable line false outer name
    let a ← settlePairs inArray a pairs
    return ({ a with current := outer }, true)

/-- Takes the tables in that the values of an array hold. -/
def settleAll (name : Bytes) (a : Assembly) : List Value → Except Trouble (Assembly × Bool)
  | [] => .ok (a, false)
  | v :: rest => do
    let (a, held) ← settle true name a v
    let (a, more) ← settleAll name a rest
    return (a, held || more)

/-- Takes pairs into the current table. -/
def settlePairs (inArray : Bool) (a : Assembly) :
    List (Key × Value × Nat) → Except Trouble Assembly
  | [] => .ok a
  | (⟨none, line⟩, _, _) :: _ => .error (.badEscape line)
  | (⟨some key, _⟩, v, line) :: rest => do
    let (a, held) ← settle inArray key a v
    let a ← if held then pure a else a.addPair line key v
    settlePairs inArray a rest

end

/-- Takes an item in. -/
def take (a : Assembly) : Item → Except Trouble Assembly
  | .pair key value line => a.settlePairs false [(key, value, line)]
  | .head inArray name keys line => do
    if keys.any (·.text.isNone) then throw (.badEscape line)
    if inArray then a.openNext line [] name else a.openTable line true [] name

end Assembly

/-- The entries of the outermost table of a text. -/
def table (text : Bytes) : Except Trouble (List Entry) :=
  match parse text with
  | .error line => .error ⟨line, none, "invalid TOML syntax"⟩
  | .ok found => do
    let a ← found.foldlM Assembly.take .start
    return a.entries.filter fun e => e.path.length = 1

end Polish.Toml
