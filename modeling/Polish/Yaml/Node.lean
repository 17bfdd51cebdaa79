import Polish.Yaml.Token

/-!
# YAML documents

A document is a tree of scalars, sequences and mappings. Every node knows its line, counted from one,
for the messages of whoever uses the document. A node may have an anchor, and an alias stands for the
node with that anchor, which may be a node around it.

The tree is read with a stack of the collections that are open. Each of them knows what it expects
next, so reading goes on step by step, however deep the collections are nested.

* `Yaml.Node`, `Yaml.Document`: a tree, and what its aliases stand for.
* `Yaml.Frame`: a collection that is open.
* `Yaml.Frame.next`: what an open collection does next.
* `Yaml.firstDocument`: the first document of a text, if there is one.
-/

namespace Polish.Yaml

/-- A node of a document. Tags are missing where none is written. -/
inductive Node where
  /-- A scalar, and whether it is plain. -/
  | scalar (line : Nat) (tag : Option Bytes) (plain : Bool) (text : Bytes)
  | sequence (line : Nat) (tag : Option Bytes) (items : List Node)
  | mapping (line : Nat) (tag : Option Bytes) (entries : List (Node × Node))
  /-- The alias with a number, for the anchored node with another. -/
  | alias (line : Nat) (name : Bytes) (number target : Nat)
deriving Repr

namespace Node

/-- The line of a node. -/
def line : Node → Nat
  | .scalar n _ _ _ | .sequence n _ _ | .mapping n _ _ | .alias n _ _ _ => n

/-- A node that is left out, in a line counted from zero. -/
def missing (line : Nat) : Node := .scalar (line + 1) none true []

end Node

/-- A document. -/
structure Document where
  root : Node
  /-- The nodes with anchors, by number. -/
  anchored : Array Node
  /-- The number of nodes, and of aliases among them. -/
  size : Nat
  aliases : Nat

namespace Document

/-- The node with an anchor, by its number. -/
def target (d : Document) (number : Nat) : Node := d.anchored[number]?.getD (.missing 0)

/-- No way down the tree is longer, if none goes twice through the same alias. -/
def depthBound (d : Document) : Nat := (d.size + 1) * (d.aliases + 1)

end Document

/-! ### Reading tokens -/

/-- The names in a document so far: what handles of tags stand for, the numbers of anchors, and the
nodes with anchors, which are missing until they have been read. -/
structure Register where
  handles : Handles
  anchors : Std.HashMap Bytes Nat
  anchored : Array Node
  aliases : Nat

/-- Before the first name. -/
def Register.empty : Register := ⟨[], ∅, #[], 0⟩

/-- Reading, which may be refused. -/
abbrev Reading := StateT Scanner (StateT Register (Except Refusal))

/-- The next token. -/
def peek : Reading Token := do
  set (← (← getThe Scanner).fill)
  return (← getThe Scanner).next

/-- Takes the next token. -/
def skip : Reading Unit := modifyThe Scanner (·.drop)

/-- Takes the next token and looks at the one after it. -/
def skipAndPeek : Reading Token := do
  skip
  peek

/-! ### What stands in front of a node -/

/-- An anchor and a tag as they are written, and the line of the tag. -/
structure Properties where
  anchor : Option Bytes
  tag : Option (TagName × Nat)
deriving DecidableEq, Repr

namespace Properties

/-- Does anything stand in front? -/
def isEmpty (p : Properties) : Bool := p.anchor.isNone && p.tag.isNone

end Properties

/-- Reads an anchor, if there is one. -/
def anchor? : Reading (Option Bytes) := do
  match (← peek).kind with
  | .anchor name =>
    skip
    return some name
  | _ => return none

/-- Reads a tag, if there is one. -/
def tag? : Reading (Option (TagName × Nat)) := do
  let t ← peek
  match t.kind with
  | .tag name =>
    skip
    return some (name, t.line)
  | _ => return none

/-- Reads an anchor and a tag, in any order. -/
def properties : Reading Properties := do
  let anchor ← anchor?
  let tag ← tag?
  if anchor.isNone && tag.isSome then
    return ⟨← anchor?, tag⟩
  return ⟨anchor, tag⟩

/-- The tag that is meant in front of a node that starts in a line. A single exclamation mark is no
tag. -/
def meantTag (start : Nat) : Option (TagName × Nat) → Reading (Option Bytes)
  | none => return none
  | some (name, line) => do
    match name.resolve? (← getThe Register).handles with
    | some tag => return if tag = "!" then none else some tag
    | none => throw (.token "found undefined tag handle" start line)

/-- Gives an anchor its number. From now on it is the one that aliases of this name mean. -/
def declare (name : Bytes) : Reading Nat := do
  let number := (← getThe Register).anchored.size
  modifyThe Register fun r =>
    { r with anchors := r.anchors.insert name number, anchored := r.anchored.push (.missing 0) }
  return number

/-- Remembers the node of an anchor, if it has one. -/
def bind (number : Option Nat) (node : Node) : Reading Node := do
  match number with
  | none => return node
  | some number =>
    modifyThe Register fun r => { r with anchored := r.anchored.setIfInBounds number node }
    return node

/-- An alias of the last anchor with its name. -/
def aliasOf (line : Nat) (name : Bytes) : Reading Node := do
  let r ← getThe Register
  match r.anchors[name]? with
  | none => throw ⟨"unknown anchor '" ++ name ++ "' referenced", none⟩
  | some target =>
    modifyThe Register fun r => { r with aliases := r.aliases + 1 }
    return .alias (line + 1) name r.aliases target

/-! ### Open collections -/

/-- Where a node stands: in a block, perhaps as part of a mapping, or in a flow collection. -/
inductive Site where
  | block
  | mappingPart
  | flow
deriving DecidableEq, Repr

/-- What an open collection expects. -/
inductive Stage where
  /-- An entry of a block sequence. -/
  | entry
  /-- An entry of a sequence that is indented like the mapping around it. -/
  | flushEntry
  /-- A key of a block mapping. -/
  | key
  /-- The value of a key in a block mapping. -/
  | value
  /-- An item of a flow sequence, perhaps the first one. -/
  | flowItem (first : Bool)
  /-- A key of a flow mapping, perhaps the first one. -/
  | flowKey (first : Bool)
  /-- The value of a key in a flow mapping. -/
  | flowValue
  /-- No value for a key that no question mark and no colon marks. -/
  | noValue
  /-- The key of a mapping of one pair, which is an item of a flow sequence. -/
  | pairKey
  /-- The value of such a pair. -/
  | pairValue
  /-- Nothing more in such a mapping. -/
  | pairEnd
deriving DecidableEq, Repr

/-- Is it a stage of a mapping? -/
def Stage.ofMapping : Stage → Bool
  | entry | flushEntry | flowItem _ => false
  | key | value | flowKey _ | flowValue | noValue | pairKey | pairValue | pairEnd => true

/-- A collection that is open. -/
structure Frame where
  stage : Stage
  /-- The line of the collection, and of its opening mark, both counted from zero. -/
  line : Nat
  opening : Nat
  tag : Option Bytes
  /-- The number of its anchor. -/
  anchor : Option Nat
  /-- The nodes read so far, the last one first; in a mapping, keys and values take turns. -/
  nodes : List Node

/-- The pairs of nodes that take turns, in front of others; the last node comes first. -/
def pairUp : List Node → List (Node × Node) → List (Node × Node)
  | value :: key :: rest, pairs => pairUp rest ((key, value) :: pairs)
  | _, pairs => pairs

namespace Frame

/-- The collection as a node. -/
def close (f : Frame) : Node :=
  if f.stage.ofMapping then .mapping (f.line + 1) f.tag (pairUp f.nodes [])
  else .sequence (f.line + 1) f.tag f.nodes.reverse

/-- The collection with one more node. -/
def add (f : Frame) (node : Node) : Frame := { f with nodes := node :: f.nodes }

/-- The mapping of one pair that starts in a line. -/
def pair (line : Nat) : Frame := ⟨.pairKey, line, line, none, none, []⟩

/-- A token that does not fit. -/
def refusal (f : Frame) (problem : Bytes) (t : Token) : Refusal := .token problem f.opening t.line

end Frame

/-- What an open collection does next. -/
inductive Move where
  /-- Reads a node, and goes on in another stage. -/
  | read (site : Site) (after : Stage)
  /-- Takes a node that is left out in a line, and goes on in another stage. -/
  | missing (line : Nat) (after : Stage)
  /-- Opens a mapping of one pair in a line, and goes on in another stage. -/
  | pair (line : Nat) (after : Stage)
  /-- Ends. -/
  | close
deriving DecidableEq, Repr

/-- Reads a node, unless one of the kinds comes next. -/
def readUnless (kinds : List TokenKind) (line : Nat) (site : Site) (after : Stage) : Reading Move := do
  return if kinds.contains (← peek).kind then .missing line after else .read site after

/-- Takes the mark that ends a collection. -/
def skipAndClose : Reading Move := do
  skip
  return .close

namespace Frame

/-- The comma between two entries of a flow collection, and the token after it. -/
def comma (f : Frame) (problem : Bytes) (first : Bool) (t : Token) : Reading Token :=
  if first then return t
  else if t.kind = .flowEntry then skipAndPeek
  else throw (f.refusal problem t)

/-- What an open flow sequence does next. A key makes an item a mapping of one pair. -/
def nextItem (f : Frame) (first : Bool) : Reading Move := do
  let t ← peek
  if t.kind = .flowSequenceEnd then skipAndClose
  else
    let t ← f.comma "did not find expected ',' or ']'" first t
    match t.kind with
    | .flowSequenceEnd => skipAndClose
    | .key =>
      skip
      return .pair t.line (.flowItem false)
    | _ => return .read .flow (.flowItem false)

/-- What an open flow mapping does next. A key alone has no value. -/
def nextKey (f : Frame) (first : Bool) : Reading Move := do
  let t ← peek
  if t.kind = .flowMappingEnd then skipAndClose
  else
    let t ← f.comma "did not find expected ',' or '\x7d'" first t
    match t.kind with
    | .flowMappingEnd => skipAndClose
    | .key =>
      let t ← skipAndPeek
      readUnless [.value, .flowEntry, .flowMappingEnd] t.line .flow .flowValue
    | _ => return .read .flow .noValue

/-- What an open collection does next. -/
def next (f : Frame) : Reading Move := do
  match f.stage with
  | .flowItem first => f.nextItem first
  | .flowKey first => f.nextKey first
  | stage =>
    let t ← peek
    match stage, t.kind with
    | .entry, .blockEntry =>
      skip
      readUnless [.blockEntry, .blockEnd] t.line .block .entry
    | .entry, .blockEnd => skipAndClose
    | .entry, _ => throw (f.refusal "did not find expected '-' indicator" t)
    | .flushEntry, .blockEntry =>
      skip
      readUnless [.blockEntry, .key, .value, .blockEnd] t.line .block .flushEntry
    | .flushEntry, _ => return .close
    | .key, .key =>
      skip
      readUnless [.key, .value, .blockEnd] t.line .mappingPart .value
    | .key, .blockEnd => skipAndClose
    | .key, _ => throw (f.refusal "did not find expected key" t)
    | .value, .value =>
      skip
      readUnless [.key, .value, .blockEnd] t.line .mappingPart .key
    | .value, _ => return .missing t.line .key
    | .flowValue, .value =>
      skip
      readUnless [.flowEntry, .flowMappingEnd] t.line .flow (.flowKey false)
    | .flowValue, _ | .noValue, _ => return .missing t.line (.flowKey false)
    | .pairKey, .value | .pairKey, .flowEntry | .pairKey, .flowSequenceEnd =>
      skip
      return .missing t.line .pairValue
    | .pairKey, _ => return .read .flow .pairValue
    | .pairValue, .value =>
      skip
      readUnless [.flowEntry, .flowSequenceEnd] t.line .flow .pairEnd
    | .pairValue, _ => return .missing t.line .pairEnd
    | .pairEnd, _ | .flowItem _, _ | .flowKey _, _ => return .close

end Frame

/-! ### Nodes -/

/-- What the tokens at some place start: a node that is complete, or a collection. -/
inductive Opening where
  | node (n : Node)
  | frame (f : Frame)

/-- Reads the start of a node, after what stands in front of it. -/
def content (site : Site) (start : Nat) (tag : Option Bytes) (anchor : Option Nat) (bare : Bool) :
    Reading Opening := do
  let t ← peek
  let inBlock := site ≠ .flow
  let scalar := fun plain text => return .node (← bind anchor (.scalar (start + 1) tag plain text))
  let opened := fun stage => Opening.frame ⟨stage, start, t.line, tag, anchor, []⟩
  match t.kind with
  | .scalar text plain =>
    skip
    scalar plain text
  | .flowSequenceStart =>
    skip
    return opened (.flowItem true)
  | .flowMappingStart =>
    skip
    return opened (.flowKey true)
  | kind =>
    if kind = .blockEntry && site = .mappingPart then return opened .flushEntry
    else if kind = .blockSequenceStart && inBlock then
      skip
      return opened .entry
    else if kind = .blockMappingStart && inBlock then
      skip
      return opened .key
    else if !bare then scalar true []
    else throw (.token "did not find expected node content" start t.line)

/-- Reads the start of a node. -/
def enter (site : Site) : Reading Opening := do
  let t ← peek
  match t.kind with
  | .alias name =>
    skip
    return .node (← aliasOf t.line name)
  | _ =>
    let p ← properties
    let tag ← meantTag t.line p.tag
    let anchor ← p.anchor.mapM declare
    content site t.line tag anchor p.isEmpty

/-- What reading is about to do. -/
inductive Task where
  /-- Read the start of a node. -/
  | read (site : Site)
  /-- Hand a node to the innermost open collection. -/
  | give (n : Node)
  /-- Go on with the innermost open collection. -/
  | resume

/-- Reads a node inside open collections, the innermost first. The result has the node and the number
of nodes in it, which is `count` so far. -/
def run : Nat → Nat → Task → List Frame → Reading (Node × Nat)
  | 0, count, _, _ => return (.missing 0, count)
  | fuel + 1, count, task, stack => do
    match task, stack with
    | .read site, stack =>
      match ← enter site with
      | .node n => run fuel count (.give n) stack
      | .frame f => run fuel count .resume (f :: stack)
    | .give n, [] => return (n, count + 1)
    | .give n, f :: stack => run fuel (count + 1) .resume (f.add n :: stack)
    | .resume, [] => return (.missing 0, count)
    | .resume, f :: stack =>
      match ← f.next with
      | .read site stage => run fuel count (.read site) ({ f with stage } :: stack)
      | .missing line stage => run fuel count (.give (.missing line)) ({ f with stage } :: stack)
      | .pair line stage => run fuel count .resume (.pair line :: { f with stage } :: stack)
      | .close => run fuel count (.give (← bind f.anchor f.close)) stack

/-- A text of this many characters has fewer steps: a character gives at most four tokens, and
between two tokens there are at most eight steps. -/
def stepBound (size : Nat) : Nat := 32 * (size + 8)

/-- Reads a node that stands in no collection. -/
def rootNode : Reading (Node × Nat) := do
  run (stepBound (← getThe Scanner).cursor.size) 0 (.read .block) []

/-! ### Documents -/

/-- Reads the lines before a document. `versioned` tells whether one with a version was seen. -/
def directives : Nat → Bool → Reading Unit
  | 0, _ => return ()
  | fuel + 1, versioned => do
    let t ← peek
    match t.kind with
    | .directive (.version major minor) =>
      if versioned then throw (.token "found duplicate %YAML directive" 0 t.line)
      if major ≠ 1 || minor ≠ 1 then throw (.token "found incompatible YAML document" 0 t.line)
      skip
      directives fuel true
    | .directive (.tag handle start) =>
      if ((← getThe Register).handles.lookup handle).isSome then
        throw (.token "found duplicate %TAG directive" 0 t.line)
      modifyThe Register fun r => { r with handles := r.handles ++ [(handle, start)] }
      skip
      directives fuel versioned
    | _ => return ()

/-- Reads the start of a document that is marked. -/
def documentStart : Reading (Node × Nat) := do
  directives ((← getThe Scanner).cursor.size + 1) false
  modifyThe Register fun r => { r with handles := r.handles ++ Handles.standard }
  let t ← peek
  if t.kind ≠ .documentStart then
    throw (.token "did not find expected <document start>" 0 t.line)
  let t ← skipAndPeek
  match t.kind with
  | .directive _ | .documentStart | .documentEnd | .streamEnd => return (.missing t.line, 1)
  | _ => rootNode

/-- Reads the first document, if there is one. A document after directives has to be marked. -/
def document : Reading (Option (Node × Nat)) := do
  let found ← match (← peek).kind with
    | .streamEnd => return none
    | .documentStart | .directive _ => documentStart
    | _ =>
      modifyThe Register fun r => { r with handles := Handles.standard }
      rootNode
  let _ ← peek
  return some found

/-- The first document of a text, if there is one. -/
def firstDocument (text : Bytes) : Except Refusal (Option Document) := do
  let ((found, _), r) ← (document.run (.start (.ofBytes text))).run .empty
  return found.map fun (root, size) => ⟨root, r.anchored, size, r.aliases⟩

end Polish.Yaml
