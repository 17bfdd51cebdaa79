import Polish.Bytes

/-!
# Grammar rules

A rule reads something at the front of a text, or fails and leaves the text as it is. Rules are tried
in order, and the first that fits is taken for good. Whatever was tried, the furthest place that some
part of the grammar came to is remembered: there a text that fits no rule is most likely wrong.

Lines are counted from one, and a carriage return is a line end of its own.

* `Toml.Place`: how far reading has come.
* `Toml.Rule`: a rule.
* `Toml.Rule.part`: a part of the grammar, whose end counts as reached.
* `Toml.Rule.many`, `Toml.Rule.many1`, `Toml.Rule.optional?`: repetition and choice.
-/

namespace Polish.Toml

/-- Does the character end a line? -/
def isLineEnd (c : Char) : Bool := c = '\r' || c = '\n'

/-- How far reading has come: the rest of the text, the number of characters before it, and its line.
The size of the whole text bounds how often a rule is applied. -/
structure Place where
  rest : List Char
  index : Nat
  line : Nat
  size : Nat
deriving DecidableEq, Repr

namespace Place

/-- The start of a text. -/
def start (text : List Char) : Place := ⟨text, 0, 1, text.length⟩

/-- The place after some characters. -/
def after (p : Place) (taken : List Char) : Place :=
  { p with
    rest := p.rest.drop taken.length, index := p.index + taken.length,
    line := p.line + taken.countP isLineEnd }

end Place

/-- Reading at the front of a text. Failure gives the place back, but not the number of characters
before the furthest place reached. -/
abbrev Rule := StateT Place (OptionT (StateM Nat))

namespace Rule

/-- The line that reading has come to. -/
def here : Rule Nat := return (← get).line

/-- Reads a character of a class. -/
def one (p : Char → Bool) : Rule Char := do
  let place ← get
  match place.rest with
  | c :: _ =>
    if p c then
      set (place.after [c])
      return c
    else failure
  | [] => failure

/-- Reads a given character. -/
def mark (c : Char) : Rule Unit := do
  let _ ← one (· = c)

/-- Reads the longest stretch of characters of a class; it may be empty. -/
def stretch (p : Char → Bool) : Rule (List Char) := do
  let place ← get
  let taken := place.rest.takeWhile p
  set (place.after taken)
  return taken

/-- Reads a given word. -/
def word (w : List Char) : Rule Unit := do
  let place ← get
  if w.isPrefixOf place.rest then set (place.after w) else failure

/-- Reads nothing at the end of the text. -/
def finished : Rule Unit := do
  if (← get).rest.isEmpty then return else failure

/-- Reads nothing where a word does not stand. -/
def notAt (w : List Char) : Rule Unit := do
  if w.isPrefixOf (← get).rest then failure else return

/-- A part of the grammar: where it ends counts as reached, unless it is empty. -/
def part {α : Type} (r : Rule α) : Rule α := do
  let before ← getThe Place
  let x ← r
  let after ← getThe Place
  if before.index < after.index then modifyThe Nat (max after.index)
  return x

/-- The text that a rule reads. -/
def textOf {α : Type} (r : Rule α) : Rule (List Char) := do
  let before ← get
  let _ ← r
  let after ← get
  return before.rest.take (after.index - before.index)

/-- Reads what a rule reads, if it fits. -/
def optional? {α : Type} (r : Rule α) : Rule (Option α) := (some <$> r) <|> pure none

/-- Applies a rule at most `fuel` times; `done` was read before, the last first. -/
def upTo {α : Type} (r : Rule α) : Nat → List α → Rule (List α)
  | 0, done => return done.reverse
  | fuel + 1, done => do
    match ← optional? r with
    | some x => upTo r fuel (x :: done)
    | none => return done.reverse

/-- Applies a rule as often as it fits. -/
def many {α : Type} (r : Rule α) : Rule (List α) := do upTo r ((← get).size + 1) []

/-- Applies a rule as often as it fits, and at least once. -/
def many1 {α : Type} (r : Rule α) : Rule (List α) := do
  let x ← r
  return x :: (← many r)

/-- The outcome of a rule on a text: what it read, or the number of characters before the furthest
place reached. -/
def runOn {α : Type} (r : Rule α) (text : List Char) : Except Nat α :=
  match (r.run (.start text)).run.run 0 with
  | (some (x, _), _) => .ok x
  | (none, reached) => .error reached

end Rule

end Polish.Toml
