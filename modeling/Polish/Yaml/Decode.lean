import Polish.NameMap
import Polish.Yaml.Value

/-!
# Taking values out of YAML documents

Whoever reads a document knows what should stand where: a text, a number, a list, a record with named
fields. A node of another shape is a mismatch; all mismatches of a document are collected and reported
together. A node that stands for nothing leaves the value as it was. A record refuses fields that it
does not know, and no mapping may have a key twice. The key `<<` takes other mappings in: their
entries count where the mapping has none of its own.

A short document with many aliases may stand for a huge one. So it is counted how many nodes are
visited, and how many of them inside aliases; if there are too many of these, the document is refused.

* `Yaml.Trouble`: why a document gives no value.
* `Yaml.Decode`: taking a value out of a document.
* `Yaml.text?`, `Yaml.flag?`, `Yaml.int64?`, `Yaml.list?`: nodes of one shape.
* `Yaml.takeMapping`: goes through the entries of a mapping.
* `Yaml.any`: nodes of any shape.
* `Yaml.map?`, `Yaml.record`: values by name.
* `Yaml.load`: the value in the first document of a text.
-/

namespace Polish.Yaml

/-- Why a document gives no value. -/
inductive Trouble where
  /-- There is no document. -/
  | empty
  /-- The text is no YAML. -/
  | refused (r : Refusal)
  /-- A node means nothing. -/
  | senseless (problem : Bytes)
  /-- Nodes are not of the shapes that are wanted. -/
  | mismatches (problems : List Bytes)
deriving DecidableEq, Repr

namespace Trouble

/-- The text of the trouble. -/
def message : Trouble → Bytes
  | empty => "EOF"
  | refused r => "yaml: " ++ r.message
  | senseless problem => "yaml: " ++ problem
  | mismatches problems => "yaml: unmarshal errors:\n  " ++ Bytes.join "\n  " problems

end Trouble

/-! ### Counting visits -/

/-- What has happened in a document so far. -/
structure Tally where
  /-- The mismatches, the last one first. -/
  problems : List Bytes
  /-- The nodes visited, and those of them inside aliases. -/
  visits : Nat
  aliasVisits : Nat
  /-- The numbers of the aliases that are being followed, the innermost first. -/
  following : List Nat
deriving DecidableEq, Repr

namespace Tally

/-- Before the first visit. -/
def start : Tally := ⟨[], 0, 0, []⟩

/-- One more visit. -/
def visit (t : Tally) : Tally :=
  { t with
    visits := t.visits + 1
    aliasVisits := if t.following.isEmpty then t.aliasVisits else t.aliasVisits + 1 }

/-- The share of visits that may lie inside aliases, in parts of 360000000: 99 percent in small
documents, 10 percent in large ones, and in between less and less. -/
def allowedShare (visits : Nat) : Nat :=
  if visits ≤ 400000 then 99 * 3600000
  else if 4000000 ≤ visits then 10 * 3600000
  else 99 * 3600000 - 89 * (visits - 400000)

/-- Do too many visits lie inside aliases? -/
def excessive (t : Tally) : Bool :=
  100 < t.aliasVisits && 1000 < t.visits
    && allowedShare t.visits * t.visits < t.aliasVisits * 360000000

end Tally

/-- Taking a value out of a document; mismatches are collected on the way. -/
abbrev Decode := ReaderT Document (StateT Tally (Except Trouble))

/-- Counts a visit. -/
def visit : Decode Unit := do
  modify (·.visit)
  if (← get).excessive then throw (.senseless "document contains excessive aliasing")

/-- Visits a node, or the node that an alias stands for. -/
def visiting {α : Type} (use : Node → Decode α) (node : Node) : Decode α := do
  visit
  match node with
  | .alias _ name number target =>
    if (← get).following.contains number then
      throw (.senseless ("anchor '" ++ name ++ "' value contains itself"))
    modify fun t => { t with following := number :: t.following }
    visit
    let value ← use ((← read).target target)
    modify fun t => { t with following := t.following.tail }
    return value
  | node => use node

/-! ### Mismatches -/

/-- Notes a problem in a line. -/
def report (line : Nat) (problem : Bytes) : Decode Unit :=
  modify fun t =>
    { t with problems := ("line " ++ Decimal.ofNat line ++ ": " ++ problem) :: t.problems }

/-- Texts longer than this many bytes are cut in messages. -/
def shownLimit : Nat := 10

/-- A text as it is shown in a message. -/
def shown (text : Bytes) : Bytes :=
  if shownLimit < text.length then text.take 7 ++ "..." else text

/-- Notes that a node is not of the kind that is wanted. -/
def wrongKind (node : Node) (wanted : Bytes) : Decode Unit :=
  let tag := node.ownTag
  let text : Bytes :=
    if tag = "!!seq" || tag = "!!map" then node.text else " `" ++ shown node.text ++ "`"
  report node.line ("cannot unmarshal " ++ tag ++ text ++ " into " ++ wanted)

/-! ### Mappings -/

/-- Are two keys written alike? All sequences are, and all mappings. -/
def sameKey (a b : Node) : Bool :=
  match a, b with
  | .scalar _ _ _ text, .scalar _ _ _ other => text = other
  | .alias _ name _ _, .alias _ other _ _ => name = other
  | .sequence _ _ _, .sequence _ _ _ | .mapping _ _ _, .mapping _ _ _ => true
  | _, _ => false

/-- The keys that come again, each after the one that it is written like. -/
def repeatedKeys : List (Node × Node) → List (Node × Node)
  | [] => []
  | (key, _) :: rest =>
    (rest.filter fun e => sameKey key e.1).map (fun e => (key, e.1)) ++ repeatedKeys rest

/-- Are all keys of a mapping different? Each that is not is noted. -/
def keysDiffer (entries : List (Node × Node)) : Decode Bool := do
  let again := repeatedKeys entries
  for (key, other) in again do
    report other.line ("mapping key " ++ Quoted.encode other.text ++ " already defined at line "
      ++ Decimal.ofNat key.line)
  return again.isEmpty

/-- A node that is not of the shape that is wanted: one that stands for nothing gives no value. -/
def unfit {α : Type} (wanted : Bytes) (node : Node) : Decode (Option α) := do
  match node with
  | .scalar _ tag plain text =>
    match Datum.ofScalar tag plain text with
    | .error problem => throw (.senseless problem)
    | .ok .null => return none
    | .ok _ =>
      wrongKind node wanted
      return none
  | .mapping _ _ entries =>
    if ← keysDiffer entries then wrongKind node wanted
    return none
  | _ =>
    wrongKind node wanted
    return none

/-! ### Scalars -/

/-- A scalar that stands for something of the kind that is wanted, given its text and its datum. -/
def scalar? {α : Type} (wanted : Bytes) (value? : Bytes → Datum → Option α) :
    Node → Decode (Option α) :=
  visiting fun node => do
    match node with
    | .scalar _ tag plain text =>
      match (Datum.ofScalar tag plain text).toOption.bind (value? text) with
      | some value => return some value
      | none => unfit wanted node
    | _ => unfit wanted node

/-- A text: any scalar will do that stands for something. -/
def text? : Node → Decode (Option Bytes) :=
  scalar? "string" fun text d =>
    match d with
    | .null => none
    | .text t => some t
    | _ => some text

/-- Texts that are truth values where one is wanted. -/
def flagWords : List (List Bytes × Bool) :=
  [(["y", "Y", "yes", "Yes", "YES", "on", "On", "ON"], true),
    (["n", "N", "no", "No", "NO", "off", "Off", "OFF"], false)]

/-- A truth value. -/
def flag? : Node → Decode (Option Bool) :=
  scalar? "bool" fun _ d =>
    match d with
    | .bool b => some b
    | .text t => (flagWords.find? fun w => w.1.contains t).map Prod.snd
    | _ => none

/-- A datum as a 64-bit number. -/
def toInt64? : Datum → Option Int64
  | .int n => if Decimal.fitsInt64 n then some (Int64.ofInt n) else none
  | .real x => x.toInt64?
  | _ => none

/-- A 64-bit number, under the name of the kind that is wanted. -/
def int64? (wanted : Bytes) : Node → Decode (Option Int64) := scalar? wanted fun _ d => toInt64? d

/-! ### Lists -/

/-- The values of the nodes that give one, after others, of which the last comes first. -/
def gather {α : Type} (value? : Node → Decode (Option α)) :
    List Node → List α → Decode (List α)
  | [], values => return values.reverse
  | node :: rest, values => do
    match ← value? node with
    | some value => gather value? rest (value :: values)
    | none => gather value? rest values

/-- A list; items that give no value are left out. -/
def list? {α : Type} (wanted : Bytes) (item? : Node → Decode (Option α)) :
    Node → Decode (Option (List α)) :=
  visiting fun node => do
    match node with
    | .sequence _ _ items => return some (← gather item? items [])
    | node => unfit wanted node

/-! ### Entries -/

/-- Does a key take other mappings in? -/
def isMerge : Node → Bool
  | .scalar _ tag plain text => text = "<<" && (tag = some "!!merge" || (plain && tag.isNone))
  | _ => false

/-- Is the node a mapping, or an alias of one? -/
def isMapping (d : Document) (node : Node) : Bool :=
  match node with
  | .mapping _ _ _ => true
  | .alias _ _ _ target => match d.target target with
    | .mapping _ _ _ => true
    | _ => false
  | _ => false

/-- Something other than mappings that is to be taken in. -/
def wantMapping : Trouble := .senseless "map merge requires map or sequence of maps as the value"

/-- How a value is built from the entries of mappings. -/
structure Collector (σ : Type) where
  /-- The key that a node gives, if any. -/
  key? : Node → Decode (Option Datum)
  /-- What happens before the entries of a mapping. -/
  fresh : σ → σ
  /-- Takes an entry with its key; the mapping may be one that is taken in. -/
  take : Bool → Datum → Node × Node → σ → Decode σ

/-- A value that is built, and, inside a mapping that is taken in, the keys that count no more. -/
structure Harvest (σ : Type) where
  value : σ
  seen : Option (List Datum)

/-- Takes the entries of a mapping's own. -/
def takeOwn {σ : Type} (c : Collector σ) : List (Node × Node) → Harvest σ → Decode (Harvest σ)
  | [], h => return h
  | entry :: rest, h => do
    if isMerge entry.1 then takeOwn c rest h
    else match ← c.key? entry.1, h.seen with
      | none, _ => takeOwn c rest h
      | some key, none => takeOwn c rest ⟨← c.take false key entry h.value, none⟩
      | some key, some seen =>
        if seen.any key.same then takeOwn c rest h
        else takeOwn c rest ⟨← c.take true key entry h.value, some (key :: seen)⟩

/-- The keys of a mapping, as values of any shape; `keys` are known. -/
def keysOf (any : Node → Decode (Option Value)) :
    List (Node × Node) → List Datum → Decode (List Datum)
  | [], keys => return keys
  | (key, _) :: rest, keys => do
    match ← any key with
    | some (.datum d) => keysOf any rest (d :: keys)
    | _ => keysOf any rest keys

/-- The nodes that are to be taken in, if there is a key for them. -/
def merged? (entries : List (Node × Node)) : Option (List Node) :=
  ((entries.filter fun e => isMerge e.1).getLast?).map fun e =>
    match e.2 with
    | .sequence _ _ items => items
    | node => [node]

/-- Takes the entries of a mapping, its own before those of the mappings that it takes in. A sequence
of mappings is taken in order. A mapping with a key twice gives nothing. -/
def takeMapping {σ : Type} (any : Node → Decode (Option Value)) (c : Collector σ) :
    Nat → List (Node × Node) → Harvest σ → Decode (Option (Harvest σ))
  | 0, _, _ => return none
  | fuel + 1, entries, h => do
    if !(← keysDiffer entries) then return none
    let own ← takeOwn c entries { h with value := c.fresh h.value }
    match merged? entries with
    | none => return some own
    | some nodes =>
      let seen ← match own.seen with
        | some seen => pure seen
        | none => keysOf any entries []
      let document ← read
      let all ← nodes.foldlM (fun h node => do
        if !isMapping document node then throw wantMapping
        visiting (fun node => do
          match node with
          | .mapping _ _ entries => return (← takeMapping any c fuel entries h).getD h
          | _ => return h) node) ⟨own.value, some seen⟩
      return some ⟨all.value, own.seen.bind fun _ => all.seen⟩

/-! ### Anything -/

/-- The key that a node gives in a table: a text, or any datum. -/
def tableKey? (any : Node → Decode (Option Value)) (textKeys : Bool) (node : Node) :
    Decode (Option Datum) := do
  if textKeys then return (← text? node).map .text
  else match ← any node with
    | none => return none
    | some (.datum d) => return some d
    | some value => throw (.senseless ("invalid map key: " ++ value.describe))

/-- Builds a table from values of any shape. -/
def tableCollector (any : Node → Decode (Option Value)) (textKeys : Bool) :
    Collector (List (Datum × Value)) where
  key? := tableKey? any textKeys
  fresh := id
  take := fun _ key entry table => do
    match ← any entry.2 with
    | some value => return Value.put key value table
    | none => return table

/-- The table that the entries of a mapping give. -/
def tableOf (any : Node → Decode (Option Value)) (fuel : Nat) (textKeys : Bool)
    (entries : List (Node × Node)) : Decode (Option Value) := do
  return (← takeMapping any (tableCollector any textKeys) fuel entries ⟨[], none⟩).map fun h =>
    .table textKeys h.value

/-- Are all keys of a mapping texts? -/
def hasTextKeys (d : Document) (entries : List (Node × Node)) : Bool :=
  entries.all fun (key, _) => d.tag key = "!!str" || d.tag key = "!!merge"

/-- A node of any shape; a mapping with a key twice gives no value. -/
def any : Nat → Node → Decode (Option Value)
  | 0 => fun _ => return none
  | fuel + 1 => visiting fun node => do
    match node with
    | .scalar _ tag plain text =>
      match Datum.ofScalar tag plain text with
      | .error problem => throw (.senseless problem)
      | .ok d => return some (.datum d)
    | .sequence _ _ items => return some (.list (← gather (any fuel) items []))
    | .mapping _ _ entries => tableOf (any fuel) fuel (hasTextKeys (← read) entries) entries
    | .alias _ _ _ _ => return none

/-- A node of any shape. -/
def anything (node : Node) : Decode (Option Value) := do
  any ((← read).depthBound + 1) node

/-- A table whose keys are texts; it is empty if the node stands for nothing. -/
def textTable? (wanted : Bytes) : Node → Decode (Option Value) :=
  visiting fun node => do
    match node with
    | .mapping _ _ entries =>
      let fuel := (← read).depthBound + 1
      tableOf (any fuel) fuel true entries
    | .scalar _ tag plain text =>
      if (Datum.ofScalar tag plain text).toOption = some .null then return some (.table true [])
      else unfit wanted node
    | node => unfit wanted node

/-! ### Named values -/

/-- Builds a map from names. A node that stands for nothing counts as `zero`, except where a mapping
is taken in and the name has a value. -/
def mapCollector {α : Type} (zero : α) (item? : Node → Decode (Option α)) :
    Collector (NameMap α) where
  key? := tableKey? (fun _ => return none) true
  fresh := id
  take := fun isTakenIn key entry map => do
    let name := match key with
      | .text name => name
      | _ => []
    match ← item? entry.2 with
    | some value => return map.put name value
    | none =>
      if (← read).tag entry.2 = "!!null" && !(isTakenIn && map.has name) then
        return map.put name zero
      else return map

/-- Named values. -/
def map? {α : Type} (wanted : Bytes) (zero : α) (item? : Node → Decode (Option α)) :
    Node → Decode (Option (NameMap α)) :=
  visiting fun node => do
    match node with
    | .mapping _ _ entries =>
      let fuel := (← read).depthBound + 1
      return (← takeMapping (any fuel) (mapCollector zero item?) fuel entries
        ⟨.empty, none⟩).map Harvest.value
    | node => unfit wanted node

/-- A field of a record: its name, and what its node does to the record. -/
structure Field (σ : Type) where
  name : Bytes
  update : Node → σ → Decode σ

/-- A field that is set to the value of its node, if that gives one. -/
def Field.of {σ α : Type} (name : Bytes) (value? : Node → Decode (Option α))
    (put : α → σ → σ) : Field σ :=
  ⟨name, fun node r => return ((← value? node).map (put · r)).getD r⟩

/-- Builds a record. No field may be set twice in a mapping. -/
def recordCollector {σ : Type} (wanted : Bytes) (fields : List (Field σ)) :
    Collector (σ × List Bytes) where
  key? := tableKey? (fun _ => return none) true
  fresh := fun (r, _) => (r, [])
  take := fun _ key entry (r, done) => do
    let name := match key with
      | .text name => name
      | _ => []
    match fields.find? (·.name = name) with
    | none =>
      report entry.1.line ("field " ++ name ++ " not found in type " ++ wanted)
      return (r, done)
    | some field =>
      if done.contains name then
        report entry.1.line ("field " ++ name ++ " already set in type " ++ wanted)
        return (r, done)
      else return (← field.update entry.2 r, name :: done)

/-- A record, starting from given values. -/
def record {σ : Type} (wanted : Bytes) (fields : List (Field σ)) (start : σ) :
    Node → Decode (Option σ) :=
  visiting fun node => do
    match node with
    | .mapping _ _ entries =>
      let fuel := (← read).depthBound + 1
      return (← takeMapping (any fuel) (recordCollector wanted fields) fuel entries
        ⟨(start, []), none⟩).map (·.value.1)
    | node => unfit wanted node

/-- A record that may be missing; a collection that is tagged as nothing cannot be one. -/
def record? {σ : Type} (wanted : Bytes) (fields : List (Field σ)) (start : σ) :
    Node → Decode (Option σ) := fun node => do
  if (← read).tag node = "!!null" then visiting (unfit ("*" ++ wanted)) node
  else record wanted fields start node

/-! ### Documents -/

/-- The value in the first document of a text, if it gives one. -/
def load {α : Type} (value? : Node → Decode (Option α)) (text : Bytes) :
    Except Trouble (Option α) :=
  match firstDocument text with
  | .error r => .error (.refused r)
  | .ok none => .error .empty
  | .ok (some d) => do
    let (value, t) ← ((do visit; value? d.root : Decode (Option α)).run d).run .start
    if t.problems.isEmpty then return value else throw (.mismatches t.problems.reverse)

end Polish.Yaml
