import Polish.Yaml.Cursor

/-!
# YAML scalars

A scalar is plain, quoted, or a block of indented lines. A line break inside a plain or quoted scalar
is folded: it becomes a blank, and further breaks remain.

* `Yaml.fold`: what blanks and breaks inside a scalar stand for.
* `Yaml.plain`, `Yaml.quoted`, `Yaml.block`: the three ways to write a scalar.
-/

namespace Polish.Yaml

/-- The line breaks of a stretch of blanks and breaks. -/
def breaksIn (gap : List Char) : List Char := (splitBreaks gap).2.map Prod.fst

/-- What a stretch of blanks and breaks between two words stands for. -/
def fold (gap : List Char) : List Char :=
  match breaksIn gap with
  | [] => gap
  | b :: more => if b = '\n' then (if more.isEmpty then [' '] else more) else b :: more

/-- A scalar that was read. -/
structure Scalar where
  text : List Char
  /-- Is it written without quotes, on no lines of its own? -/
  plain : Bool
  /-- Where the text goes on. -/
  after : Cursor
  /-- Does the scalar end with a line break? -/
  brokeOff : Bool
deriving DecidableEq, Repr

/-- The text of pieces that were read one after the other, the last one first. -/
def joinPieces (pieces : List (List Char)) : List Char := pieces.reverse.flatten

/-! ### Plain scalars -/

/-- The characters that end a plain scalar in a flow collection. -/
def isFlowMark (c : Char) : Bool :=
  c = ',' || c = '?' || c = '[' || c = ']' || c = '\x7b' || c = '\x7d'

/-- The length of the word of a plain scalar at the front of a text, after `n` characters: it ends at
a blank, at a colon before a blank and, in a flow collection, at a mark of the collection. -/
def plainLength (inFlow : Bool) : List Char → Nat → Nat
  | [], n => n
  | c :: rest, n =>
    if isSpace c || (c = ':' && rest.head?.all isSpace) || (inFlow && isFlowMark c) then n
    else plainLength inFlow rest (n + 1)

/-- The number of lines in a stretch of blanks and breaks before a tab that stands where the
indentation should be. -/
def strayTab? (indent : Nat) (gap : List Char) : Option Nat :=
  let lines := (splitBreaks gap).2.map Prod.snd
  (lines.findIdx? fun line => (line.take indent).contains '\t').map (· + 1)

/-- The words of a plain scalar, from a cursor on; `gap` stands before them, and `pieces` were read.
Words that are indented less than `indent` columns do not belong to the scalar. -/
def plainWords (inFlow : Bool) (indent startLine : Nat) :
    Nat → List (List Char) → List Char → Cursor → Except Refusal Scalar
  | 0, pieces, _, c => .ok ⟨joinPieces pieces, true, c, false⟩
  | fuel + 1, pieces, gap, c => do
    let c ← c.reach Cursor.markReach
    let broken := !(breaksIn gap).isEmpty
    if c.atDocumentEdge || c.head? = some '#' then return ⟨joinPieces pieces, true, c, broken⟩
    let word := c.rest.take (plainLength inFlow c.rest 0)
    let (pieces, broken) :=
      if word.isEmpty then (pieces, broken) else (word :: fold gap :: pieces, false)
    let c := c.past word
    c.need 2
    if !c.head?.any isSpace then return ⟨joinPieces pieces, true, c, broken⟩
    let (gap, after) ← c.span isSpace
    match strayTab? indent gap with
    | some lines =>
      throw (.character "found a tab character that violates indentation" startLine
        { c with line := c.line + lines })
    | none =>
      if !inFlow && after.column < indent then
        return ⟨joinPieces pieces, true, after, !(breaksIn gap).isEmpty⟩
      plainWords inFlow indent startLine fuel pieces gap after

/-- Reads a plain scalar. -/
def plain (inFlow : Bool) (indent : Nat) (c : Cursor) : Except Refusal Scalar :=
  plainWords inFlow indent c.line (c.size + 1) [] [] c

/-! ### Quoted scalars -/

/-- The character of a short escape. -/
def shortEscape? (c : Char) : Option Char :=
  match c with
  | '0' => some '\x00'
  | 'a' => some '\x07'
  | 'b' => some '\x08'
  | 't' | '\t' => some '\t'
  | 'n' => some '\n'
  | 'v' => some '\x0B'
  | 'f' => some '\x0C'
  | 'r' => some '\r'
  | 'e' => some '\x1B'
  | ' ' | '"' | '\'' | '\\' => some c
  | 'N' => some '\u0085'
  | '_' => some '\u00A0'
  | 'L' => some '\u2028'
  | 'P' => some '\u2029'
  | _ => none

/-- The number of digits of a numbered escape. -/
def escapeDigits? (c : Char) : Option Nat :=
  match c with
  | 'x' => some 2
  | 'u' => some 4
  | 'U' => some 8
  | _ => none

/-- The value of a hexadecimal digit. -/
def hexValue? (c : Char) : Option Nat :=
  if c.isDigit then some (c.toNat - 0x30)
  else if 'a' ≤ c && c ≤ 'f' then some (c.toNat - 0x57)
  else if 'A' ≤ c && c ≤ 'F' then some (c.toNat - 0x37)
  else none

/-- The number that hexadecimal digits stand for. -/
def hexNumber? (digits : List Char) : Option Nat :=
  digits.foldlM (fun v c => (hexValue? c).map (16 * v + ·)) 0

/-- The character with a number. -/
def charOf? (n : Nat) : Option Char :=
  if h : n.isValidChar then some (Char.ofNatAux n h) else none

/-- What an escape stands for, from its backslash on, and the cursor after it. -/
def escape (startLine : Nat) (c : Cursor) : Except Refusal (Char × Cursor) := do
  let refuse := fun (problem : Bytes) => throw (Refusal.character problem startLine c)
  c.need 2
  let letter := (c.rest[1]?).getD '\x00'
  let c := c.advance 2
  match shortEscape? letter, escapeDigits? letter with
  | some x, _ => return (x, c)
  | none, none => refuse "found unknown escape character"
  | none, some n =>
    c.need n
    let digits := c.rest.take n
    match if digits.length < n then none else hexNumber? digits with
    | none => refuse "did not find expected hexdecimal number"
    | some v =>
      match charOf? v with
      | none => refuse "found invalid Unicode character escape code"
      | some x => return (x, c.advance n)

/-- The stretch of a quoted scalar without anything that needs attention. -/
def isPlainQuoted (single : Bool) (c : Char) : Bool :=
  !isSpace c && c ≠ (if single then '\'' else '"') && (single || c ≠ '\\')

/-- A word of a quoted scalar after some pieces, the cursor after it, and whether an escaped line
break ends it. -/
def quotedWord (single : Bool) (startLine : Nat) :
    Nat → List (List Char) → Cursor → Except Refusal (List (List Char) × Cursor × Bool)
  | 0, pieces, c => .ok (pieces, c, false)
  | fuel + 1, pieces, c => do
    let (taken, c) ← c.span (isPlainQuoted single)
    let pieces := taken :: pieces
    c.need 2
    match c.head? with
    | none => return (pieces, c, false)
    | some x =>
      if isSpace x then return (pieces, c, false)
      else if single then
        if c.rest[1]? = some '\'' then
          quotedWord single startLine fuel (['\''] :: pieces) (c.advance 2)
        else return (pieces, c, false)
      else if x = '"' then return (pieces, c, false)
      else if (c.rest[1]?).any isBreak then
        c.need 3
        return (pieces, ← c.skip.skipBreak, true)
      else
        let (x, c) ← escape startLine c
        quotedWord single startLine fuel ([x] :: pieces) c

/-- The words of a quoted scalar up to the closing quote. -/
def quotedWords (single : Bool) (startLine : Nat) :
    Nat → List (List Char) → Cursor → Except Refusal Scalar
  | 0, pieces, c => .ok ⟨joinPieces pieces, false, c, false⟩
  | fuel + 1, pieces, c => do
    let c ← c.reach Cursor.markReach
    if c.atDocumentEdge then
      throw (.character "found unexpected document indicator" startLine c)
    if c.atEnd then throw (.character "found unexpected end of stream" startLine c)
    let (pieces, c, escapedBreak) ← quotedWord single startLine (c.size + 1) pieces c
    c.need 1
    if c.head? = some (if single then '\'' else '"') then
      return ⟨joinPieces pieces, false, c.skip, false⟩
    let (gap, after) ← c.span isSpace
    let between := if escapedBreak then breaksIn gap else fold gap
    quotedWords single startLine fuel (between :: pieces) after

/-- Reads a quoted scalar, from its opening quote on. -/
def quoted (single : Bool) (c : Cursor) : Except Refusal Scalar :=
  quotedWords single c.line (c.size + 1) [] c.skip

/-! ### Blocks -/

/-- What happens to the line breaks at the end of a block. -/
inductive Chomp where
  | clip
  | strip
  | keep
deriving DecidableEq, Repr

/-- The marks after the start of a block: what to do at its end, and by how much it is indented. -/
structure BlockHeader where
  chomp : Chomp
  increment : Nat
  after : Cursor
deriving DecidableEq, Repr

/-- The mark for the end of a block. -/
def chomp? (c : Char) : Option Chomp :=
  if c = '+' then some .keep else if c = '-' then some .strip else none

/-- Reads the marks after the start of a block: each of the two kinds at most once. -/
def blockMarks (startLine : Nat) (c : Cursor) : Except Refusal BlockHeader := do
  let zero := fun (c : Cursor) =>
    throw (Refusal.character "found an indentation indicator equal to 0" startLine c)
  let digit := fun (c : Cursor) => (c.head?.filter Char.isDigit).map fun d => d.toNat - 0x30
  c.need 1
  match c.head?.bind chomp? with
  | some chomp =>
    let c := c.skip
    c.need 1
    match digit c with
    | some 0 => zero c
    | some n => return ⟨chomp, n, c.skip⟩
    | none => return ⟨chomp, 0, c⟩
  | none =>
    match digit c with
    | some 0 => zero c
    | some n =>
      let c := c.skip
      c.need 1
      match c.head?.bind chomp? with
      | some chomp => return ⟨chomp, n, c.skip⟩
      | none => return ⟨.clip, n, c⟩
    | none => return ⟨.clip, 0, c⟩

/-- Skips indentation and empty lines of a block. An indentation of 0 is not known yet. The result
has the line breaks, the widest indentation and the cursor; `breaks` were read, the last one first. -/
def blockGap (startLine indent : Nat) :
    Nat → List Char → Nat → Cursor → Except Refusal (List Char × Nat × Cursor)
  | 0, breaks, widest, c => .ok (breaks.reverse, widest, c)
  | fuel + 1, breaks, widest, c => do
    let blanks := c.rest.takeWhile (· = ' ')
    let c := c.past (if indent = 0 then blanks else blanks.take (indent - c.column))
    c.need 1
    let widest := max widest c.column
    if (indent = 0 || c.column < indent) && c.head? = some '\t' then
      throw (.character "found a tab character where an indentation space is expected" startLine c)
    if c.head?.any isBreak then
      let b := breakChar (c.head?.getD '\n')
      blockGap startLine indent fuel (b :: breaks) widest (← c.skipBreak)
    else return (breaks.reverse, widest, c)

/-- What the break between two lines of a block stands for: in a folded block, a blank if neither
line is indented further and no empty line stands between them. -/
def blockJoin (literal : Bool) (indented : Bool) (lineBreak more : List Char) : List Char :=
  if !literal && !indented && lineBreak.head? = some '\n' then
    (if more.isEmpty then [' '] else more)
  else lineBreak ++ more

/-- What was read of a block: its lines in pieces, the last one first, the break after the last line,
and the empty lines that follow. -/
structure BlockText where
  pieces : List (List Char)
  lineBreak : List Char
  more : List Char
  after : Cursor

/-- The lines of a block; `indented` tells whether the line before was indented further. -/
def blockLines (literal : Bool) (startLine indent : Nat) :
    Nat → Bool → BlockText → Except Refusal BlockText
  | 0, _, t => .ok t
  | fuel + 1, indented, t => do
    let c := t.after
    if c.column ≠ indent || c.atEnd then return t
    let deeper := c.head?.any isBlank
    let join := blockJoin literal (indented || deeper) t.lineBreak t.more
    let (line, c) ← c.span fun x => !isBreak x
    let lineBreak := (c.head?.map breakChar).toList
    let (more, _, c) ← blockGap startLine indent (c.size + 1) [] 0 (← c.skipBreak)
    blockLines literal startLine indent fuel deeper
      ⟨line :: join :: t.pieces, lineBreak, more, c⟩

/-- Reads a block, from its mark on, inside a collection that is indented by `outer` columns (-1
outside of any). -/
def block (literal : Bool) (outer : Int) (c : Cursor) : Except Refusal Scalar := do
  let startLine := c.line
  let header ← blockMarks startLine c.skip
  let c ← header.after.skipWhile isBlank
  let c ← if c.head? = some '#' then c.skipLine else pure c
  if c.head?.any (!isBreak ·) then
    throw (.character "did not find expected comment or line break" startLine c)
  let c ← c.skipBreak
  let given := if header.increment = 0 then 0 else (max outer 0).toNat + header.increment
  let (breaks, widest, c) ← blockGap startLine given (c.size + 1) [] 0 c
  let indent := if given = 0 then max (max widest (outer + 1).toNat) 1 else given
  let t ← blockLines literal startLine indent (c.size + 1) false ⟨[], [], breaks, c⟩
  let ending := match header.chomp with
    | .strip => []
    | .clip => t.lineBreak
    | .keep => t.lineBreak ++ t.more
  return ⟨joinPieces (ending :: t.pieces), false, t.after, true⟩

end Polish.Yaml
