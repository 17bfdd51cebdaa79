import Std.Data.HashMap
import Polish.Yaml.Tag

/-!
# YAML tokens

A YAML text is a stream of tokens. Block collections have no marks of their own: they start where a
line is indented further than the collection around it, and end where a line is indented less. A
mapping key is only recognized by the colon that follows it, so a token that may be a key stays a
candidate until its line ends, and when the colon comes, the marks of key and mapping are put in
front of it. Collections may be nested to a depth of 10000.

* `Yaml.Token`: a token and its line.
* `Yaml.Candidate`: a token that may turn out to be a key.
* `Yaml.Scanner`: the tokens found so far, and the rest of the text.
* `Yaml.Scanner.fetch`: the next token.
* `Yaml.Scanner.fill`: as many tokens as the next one depends on.
-/

namespace Polish.Yaml

/-- The kinds of tokens. -/
inductive TokenKind where
  | streamEnd
  | directive (d : Directive)
  | documentStart
  | documentEnd
  | blockSequenceStart
  | blockMappingStart
  | blockEnd
  | flowSequenceStart
  | flowSequenceEnd
  | flowMappingStart
  | flowMappingEnd
  | blockEntry
  | flowEntry
  | key
  | value
  | alias (name : Bytes)
  | anchor (name : Bytes)
  | tag (name : TagName)
  | scalar (text : Bytes) (plain : Bool)
deriving DecidableEq, Repr

/-- A token and the line it stands in, counted from zero. -/
structure Token where
  kind : TokenKind
  line : Nat
deriving DecidableEq, Repr

/-! ### Candidates -/

/-- A token that may turn out to be a key, and where it starts. -/
structure Candidate where
  /-- Does it still wait for its colon? -/
  waiting : Bool
  /-- Must it be a key? So it is at the start of a line of a block mapping. -/
  required : Bool
  /-- The number of the token in the stream. -/
  number : Nat
  line : Nat
  column : Nat
  index : Nat
deriving DecidableEq, Repr

namespace Candidate

/-- How far from its start a key may end. -/
def reach : Nat := 1024

/-- Is it too late for the colon? -/
def stale (c : Candidate) (now : Cursor) : Bool :=
  c.line < now.line || c.index + reach < now.index

/-- A required key without its colon. -/
def refusal (c : Candidate) (now : Cursor) : Refusal :=
  .character "could not find expected ':'" c.line now

end Candidate

/-- The state of reading tokens. -/
structure Scanner where
  cursor : Cursor
  /-- The tokens found so far. -/
  tokens : Array Token
  /-- The number of tokens taken. -/
  taken : Nat
  /-- The last candidate of the block, and those of the flow collections in it, outermost first. -/
  candidates : Array Candidate
  /-- The place among the candidates where a token of some number was put. -/
  places : Std.HashMap Nat Nat
  /-- The column of the innermost block collection, or -1. -/
  indent : Int
  /-- The columns of the block collections around it. -/
  outer : List Int
  /-- The number of open block collections. -/
  blocks : Nat
  /-- May a key start here? -/
  keyAllowed : Bool

namespace Scanner

/-- Before the first token. -/
def start (s : Source) : Scanner :=
  ⟨.start s, #[], 0, #[⟨false, false, 0, 0, 0, 0⟩], ∅, -1, [], 0, true⟩

/-- The number of open flow collections. -/
def depth (s : Scanner) : Nat := s.candidates.size - 1

/-- Adds a token at the end. -/
def push (s : Scanner) (kind : TokenKind) (line : Nat) : Scanner :=
  { s with tokens := s.tokens.push ⟨kind, line⟩ }

/-- Adds a token before the one with a number, or at the end if that one has been taken. -/
def insert (s : Scanner) (number : Nat) (kind : TokenKind) (line : Nat) : Scanner :=
  if number < s.taken then s.push kind line
  else { s with tokens := s.tokens.insertIdxIfInBounds number ⟨kind, line⟩ }

/-- How deep collections may be nested. -/
def maxDepth : Nat := 10000

/-- Collections that are nested too deep; the one around them has a candidate in the line
`construct`. -/
def tooDeep (s : Scanner) (construct : Nat) : Refusal :=
  .character ("exceeded max depth of " ++ Decimal.ofNat maxDepth) construct s.cursor

/-! ### The current candidate -/

/-- The candidate of the innermost collection. -/
def candidate (s : Scanner) : Candidate := s.candidates.back?.getD ⟨false, false, 0, 0, 0, 0⟩

/-- Changes a candidate. -/
def putCandidate (s : Scanner) (place : Nat) (c : Candidate) : Scanner :=
  { s with candidates := s.candidates.setIfInBounds place c }

/-- A candidate that starts here. -/
def candidateHere (s : Scanner) (waiting required : Bool) : Candidate :=
  ⟨waiting, required, s.tokens.size, s.cursor.line, s.cursor.column, s.cursor.index⟩

/-- Gives up the current candidate. -/
def dropCandidate (s : Scanner) : Except Refusal Scanner :=
  let c := s.candidate
  if !c.waiting then .ok s
  else if c.required then .error (c.refusal s.cursor)
  else
    let s := s.putCandidate s.depth { c with waiting := false }
    .ok { s with places := s.places.erase c.number }

/-- Makes the token that starts here a candidate, if a key is allowed. -/
def saveCandidate (s : Scanner) : Except Refusal Scanner :=
  if s.keyAllowed then do
    let c := s.candidateHere true (s.depth = 0 && s.indent = s.cursor.column)
    let s ← s.dropCandidate
    let place := s.depth
    let s := s.putCandidate place c
    return { s with places := s.places.insert c.number place }
  else .ok s

/-- Does the candidate at a place still wait for its colon? One for which it is too late waits no
longer, and is refused if it is required. -/
def stillWaits (place : Nat) (s : Scanner) : Except Refusal (Bool × Scanner) :=
  match s.candidates[place]? with
  | none => .ok (false, s)
  | some c =>
    if !c.waiting then .ok (false, s)
    else if !c.stale s.cursor then .ok (true, s)
    else if c.required then .error (c.refusal s.cursor)
    else .ok (false, s.putCandidate place { c with waiting := false })

/-! ### Indentation -/

/-- Starts a block collection at a column, unless one is open there. -/
def openBlock (s : Scanner) (column : Nat) (insertToken : Scanner → Scanner) :
    Except Refusal Scanner :=
  if s.depth = 0 && s.indent < column then
    if maxDepth ≤ s.blocks then .error (s.tooDeep s.candidate.line)
    else .ok { insertToken s with
      indent := column, outer := s.indent :: s.outer, blocks := s.blocks + 1 }
  else .ok s

/-- Ends block collections, given the columns of those around the innermost one. -/
def closeBlocks (line : Nat) (column : Int) : List Int → Scanner → Scanner
  | [], s => s
  | around :: rest, s =>
    if column < s.indent then
      closeBlocks line column rest
        { s.push .blockEnd line with indent := around, outer := rest, blocks := s.blocks - 1 }
    else s

/-- Ends the block collections that are indented further than a column. -/
def unindent (line : Nat) (column : Int) (s : Scanner) : Scanner :=
  if s.depth = 0 then closeBlocks line column s.outer s else s

/-! ### Between tokens -/

/-- How many characters are searched for a comment. -/
def commentReach : Nat := 512

/-- The number of characters of a class before the next comment, if one is near enough. -/
def commentAfter? (p : Char → Bool) (c : Cursor) : Except Refusal (Option Nat) := do
  let n := (c.rest.takeWhile p).length
  if commentReach ≤ n then return none
  c.need (n + 1)
  return if c.rest[n]? = some '#' then some n else none

/-- Skips the comment at the cursor, and the comments that follow it with nothing but blanks and
line breaks between them. -/
def skipComments : Nat → Cursor → Except Refusal Cursor
  | 0, c => .ok c
  | fuel + 1, c => do
    let c ← c.skipLine
    match ← commentAfter? isSpace c with
    | some n => skipComments fuel (c.advance n)
    | none => return c

/-- Skips a comment that follows in the same line. -/
def skipRemark (c : Cursor) : Except Refusal Cursor := do
  match ← commentAfter? isBlank c with
  | some n => (c.advance n).skipLine
  | none => return c

/-- Skips blanks, comments and line breaks. A tab may not stand where a block collection is indented.
After a line break a key is allowed in a block. -/
def skipSpace : Nat → Scanner → Except Refusal Scanner
  | 0, s => .ok s
  | fuel + 1, s => do
    let c := s.cursor
    c.need 1
    let c := if c.column = 0 && c.index < c.lossy then c.skip else c
    let c ← c.skipWhile fun x => x = ' ' || (x = '\t' && (0 < s.depth || !s.keyAllowed))
    let c ← if c.head? = some '#' then skipComments (c.size + 1) c else pure c
    if c.head?.any isBreak then
      skipSpace fuel
        { s with cursor := ← c.skipBreak, keyAllowed := s.keyAllowed || s.depth = 0 }
    else return { s with cursor := c }

/-! ### The tokens -/

/-- Takes the mark at the cursor as a token. -/
def mark (s : Scanner) (kind : TokenKind) (length : Nat) : Scanner :=
  { s.push kind s.cursor.line with cursor := s.cursor.advance length }

/-- Takes the mark at the cursor as a token, with a comment that follows it. -/
def markRemark (s : Scanner) (kind : TokenKind) : Except Refusal Scanner := do
  let s := s.mark kind 1
  return { s with cursor := ← skipRemark s.cursor }

/-- The end of the text. -/
def streamEnd (s : Scanner) : Except Refusal Scanner := do
  let c := s.cursor
  let c := if c.column = 0 then c else { c with line := c.line + 1, column := 0 }
  let s := { s with cursor := c }.unindent c.line (-1)
  let s ← s.dropCandidate
  return { s with keyAllowed := false }.push .streamEnd c.line

/-- A line before a document. -/
def directiveLine (s : Scanner) : Except Refusal Scanner := do
  let s ← (s.unindent s.cursor.line (-1)).dropCandidate
  let line := s.cursor.line
  let (d, c) ← directive s.cursor
  return { s with keyAllowed := false, cursor := c }.push (.directive d) line

/-- The start or end of a document. -/
def documentMark (kind : TokenKind) (s : Scanner) : Except Refusal Scanner := do
  let s ← (s.unindent s.cursor.line (-1)).dropCandidate
  return { s with keyAllowed := false }.mark kind 3

/-- The start of a flow collection. -/
def flowStart (kind : TokenKind) (s : Scanner) : Except Refusal Scanner := do
  let s ← s.saveCandidate
  if maxDepth ≤ s.depth then throw (s.tooDeep s.cursor.line)
  let c := s.candidateHere false false
  { s with candidates := s.candidates.push c, keyAllowed := true }.markRemark kind

/-- The end of a flow collection. -/
def flowEnd (kind : TokenKind) (s : Scanner) : Except Refusal Scanner := do
  let s ← s.dropCandidate
  let number := s.candidate.number
  let s := if s.depth = 0 then s
    else { s with places := s.places.erase number, candidates := s.candidates.pop }
  { s with keyAllowed := false }.markRemark kind

/-- The comma of a flow collection. -/
def flowEntry (s : Scanner) : Except Refusal Scanner := do
  let s ← s.dropCandidate
  { s with keyAllowed := true }.markRemark .flowEntry

/-- The dash before an entry of a block sequence. -/
def blockEntry (s : Scanner) : Except Refusal Scanner := do
  let line := s.cursor.line
  if s.depth = 0 && !s.keyAllowed then
    throw (.character "block sequence entries are not allowed in this context" line s.cursor)
  let s ← s.openBlock s.cursor.column (·.push .blockSequenceStart line)
  let s ← s.dropCandidate
  return { s with keyAllowed := true }.mark .blockEntry 1

/-- The question mark before a key. -/
def explicitKey (s : Scanner) : Except Refusal Scanner := do
  let line := s.cursor.line
  if s.depth = 0 && !s.keyAllowed then
    throw (.character "mapping keys are not allowed in this context" line s.cursor)
  let s ← s.openBlock s.cursor.column (·.push .blockMappingStart line)
  let s ← s.dropCandidate
  { s with keyAllowed := s.depth = 0 }.markRemark .key

/-- The colon before a value: what the candidate was waiting for, or the value of a key that is
marked or missing. -/
def valueMark (s : Scanner) : Except Refusal Scanner := do
  let (found, s) ← s.stillWaits s.depth
  if found then
    let c := s.candidate
    let s := s.insert c.number .key c.line
    let s ← s.openBlock c.column (·.insert c.number .blockMappingStart c.line)
    let s := s.putCandidate s.depth { c with waiting := false }
    { s with places := s.places.erase c.number, keyAllowed := false }.markRemark .value
  else
    let line := s.cursor.line
    if s.depth = 0 && !s.keyAllowed then
      throw (.character "mapping values are not allowed in this context" line s.cursor)
    let s ← s.openBlock s.cursor.column (·.push .blockMappingStart line)
    { s with keyAllowed := s.depth = 0 }.markRemark .value

/-- The name of an anchor or alias. -/
def name (kind : Bytes → TokenKind) (s : Scanner) : Except Refusal Scanner := do
  let s ← s.saveCandidate
  let line := s.cursor.line
  let (word, c) ← s.cursor.skip.span isWordChar
  let ends := c.spaceAt 0 || c.head?.any fun x => "?:,]\x7d%@`".toList.contains x
  if word.isEmpty || !ends then
    throw (.character "did not find expected alphabetic or numeric character" line c)
  let after ← skipRemark c
  return { s with keyAllowed := false, cursor := after }.push (kind (Bytes.ofChars word)) line

/-- The tag of a node. -/
def tag (s : Scanner) : Except Refusal Scanner := do
  let s ← s.saveCandidate
  let line := s.cursor.line
  let (name, c) ← tagName s.cursor
  let after ← skipRemark c
  return { s with keyAllowed := false, cursor := after }.push (.tag name) line

/-- Takes a scalar as a token. -/
def takeScalar (s : Scanner) (x : Scalar) : Except Refusal Scanner := do
  let after ← if x.brokeOff then pure x.after else skipRemark x.after
  return { s.push (.scalar (Bytes.ofChars x.text) x.plain) s.cursor.line with
    cursor := after, keyAllowed := x.brokeOff }

/-- A block of indented lines. -/
def blockScalar (literal : Bool) (s : Scanner) : Except Refusal Scanner := do
  let s ← s.dropCandidate
  s.takeScalar (← block literal s.indent s.cursor)

/-- A quoted scalar. -/
def quotedScalar (single : Bool) (s : Scanner) : Except Refusal Scanner := do
  let s ← s.saveCandidate
  s.takeScalar (← quoted single s.cursor)

/-- A plain scalar. -/
def plainScalar (s : Scanner) : Except Refusal Scanner := do
  let s ← s.saveCandidate
  s.takeScalar (← plain (0 < s.depth) (s.indent + 1).toNat s.cursor)

/-- Can a plain scalar start with this character? -/
def startsPlain (s : Scanner) (x : Char) : Bool :=
  let next := s.cursor.rest[1]?
  if x = '-' then !next.any isBlank
  else if x = '?' || x = ':' then s.depth = 0 && !next.all isSpace
  else !isSpace x && !",[]\x7b\x7d#&*!|>'\"%@`".toList.contains x

/-- Finds the token that starts with a character, which is the next one. -/
def fetchAt (x : Char) (s : Scanner) : Except Refusal Scanner :=
  let marked := s.depth > 0 || s.cursor.spaceAt 1
  if x = '%' && s.cursor.column = 0 then s.directiveLine
  else if s.cursor.atDocumentMark '-' then s.documentMark .documentStart
  else if s.cursor.atDocumentMark '.' then s.documentMark .documentEnd
  else if x = '[' then s.flowStart .flowSequenceStart
  else if x = '\x7b' then s.flowStart .flowMappingStart
  else if x = ']' then s.flowEnd .flowSequenceEnd
  else if x = '\x7d' then s.flowEnd .flowMappingEnd
  else if x = ',' then s.flowEntry
  else if x = '-' && s.cursor.spaceAt 1 then s.blockEntry
  else if x = '?' && marked then s.explicitKey
  else if x = ':' && marked then s.valueMark
  else if x = '*' then s.name .alias
  else if x = '&' then s.name .anchor
  else if x = '!' then s.tag
  else if x = '|' && s.depth = 0 then s.blockScalar true
  else if x = '>' && s.depth = 0 then s.blockScalar false
  else if x = '\'' then s.quotedScalar true
  else if x = '"' then s.quotedScalar false
  else if s.startsPlain x then s.plainScalar
  else .error (.character "found character that cannot start any token" s.cursor.line s.cursor)

/-- Finds the next token. -/
def fetch (s : Scanner) : Except Refusal Scanner := do
  let line := s.cursor.line
  let s ← skipSpace (s.cursor.size + 1) s
  let s := s.unindent line s.cursor.column
  let s := { s with cursor := ← s.cursor.reach Cursor.markReach }
  match s.cursor.head? with
  | none => s.streamEnd
  | some x => s.fetchAt x

/-- The number of tokens that are looked at before one is taken. -/
def lookahead : Nat := 3

/-- Finds tokens until enough are known, and the next one waits for no colon. -/
def fillFrom : Nat → Scanner → Except Refusal Scanner
  | 0, s => .ok s
  | fuel + 1, s => do
    if s.tokens.size < s.taken + lookahead then fillFrom fuel (← s.fetch)
    else match s.places[s.taken]? with
      | none => return s
      | some place =>
        let (waits, s) ← s.stillWaits place
        if waits then fillFrom fuel (← s.fetch) else return s

/-- Finds as many tokens as the next one depends on. -/
def fill (s : Scanner) : Except Refusal Scanner :=
  fillFrom (s.cursor.size + lookahead + 1) s

/-- The next token. -/
def next (s : Scanner) : Token := s.tokens[s.taken]?.getD ⟨.streamEnd, s.cursor.line⟩

/-- The scanner after the next token. -/
def drop (s : Scanner) : Scanner := { s with taken := s.taken + 1 }

end Scanner

end Polish.Yaml
