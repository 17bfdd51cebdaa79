import Polish.Fault
import Polish.Token

/-!
# From source text to tokens

A source is read byte by byte. Six ASCII blanks separate words, and a semicolon starts a comment
that runs to the end of its line. Every other maximal run of bytes is a word; a word that is not
well-formed UTF-8 is refused. Columns count characters: a byte that continues a character does not
move the column, inside comments as well.

* `Position`, `Position.advance`: how a byte moves the place.
* `Word`, `scanWords`: the words of a source with their places.
* `tokenize`: the tokens of a source, or the first word that is not well-formed.
-/

namespace Polish

/-- A place in a source. -/
structure Position where
  line : Nat
  col : Nat
deriving DecidableEq, Repr

namespace Position

/-- The first place of a source. -/
def start : Position := ⟨1, 1⟩

/-- The place after a byte. -/
def advance (p : Position) (b : UInt8) : Position :=
  if b = Bytes.newline then ⟨p.line + 1, 1⟩
  else if Bytes.isLead b then { p with col := p.col + 1 }
  else p

end Position

/-- One of the six blanks that separate words. -/
def isGapByte (b : UInt8) : Bool :=
  b == 0x20 || b == 0x09 || b == 0x0D || b == 0x0A || b == 0x0C || b == 0x0B

/-- The byte that starts a comment. -/
def commentByte : UInt8 := 0x3B

/-- Does the byte belong to a word? -/
def isWordByte (b : UInt8) : Bool := !isGapByte b && b != commentByte

/-- A maximal run of word bytes, with the places before and after it. -/
structure Word where
  text : Bytes
  start : Position
  stop : Position
deriving DecidableEq, Repr

/-- What the scanner is reading. -/
inductive Reading where
  /-- Between words. -/
  | gap
  /-- Inside a comment. -/
  | comment
  /-- Inside a word: where it started, and its bytes so far, last byte first. -/
  | word (start : Position) (read : Bytes)

/-- The words of the rest of a source, read from a place in the middle of it. -/
def scanFrom : Reading → Position → Bytes → List Word
  | .word start read, p, [] => [⟨read.reverse, start, p⟩]
  | _, _, [] => []
  | .gap, p, b :: rest =>
    if isWordByte b then scanFrom (.word p [b]) (p.advance b) rest
    else scanFrom (if b = commentByte then .comment else .gap) (p.advance b) rest
  | .comment, p, b :: rest =>
    scanFrom (if b = Bytes.newline then .gap else .comment) (p.advance b) rest
  | .word start read, p, b :: rest =>
    if isWordByte b then scanFrom (.word start (b :: read)) (p.advance b) rest
    else
      ⟨read.reverse, start, p⟩
        :: scanFrom (if b = commentByte then .comment else .gap) (p.advance b) rest

/-- The words of a source. -/
def scanWords (source : Bytes) : List Word := scanFrom .gap .start source

namespace Word

/-- The range of the word. -/
def span (file : Bytes) (w : Word) : Span :=
  ⟨file, w.start.line, w.start.col, w.stop.line, w.stop.col⟩

/-- The range of the word's first character. -/
def firstSpan (file : Bytes) (w : Word) : Span :=
  ⟨file, w.start.line, w.start.col, w.start.line, w.start.col + 1⟩

/-- The token of a word, if the word is well-formed. -/
def toToken (file : Bytes) (w : Word) : Except Failure Token :=
  if w.text.isWellFormed then .ok ⟨w.text, w.span file⟩
  else .error ⟨.invalidText w.text, some (w.firstSpan file)⟩

end Word

/-- The tokens of a source. -/
def tokenize (file source : Bytes) : Except Failure (List Token) :=
  (scanWords source).mapM (Word.toToken file)

end Polish
