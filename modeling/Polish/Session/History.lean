import Polish.Text.Decimal
import Polish.Text.Rune

/-!
# Reading lines typed by a user, and remembering them

Input is read in pieces of bounded length: a piece ends with its line, or where the reader's buffer
is full. Remembered lines are kept in a file, one a line. A line equal to the one before it is not
remembered again, and only the most recent lines are kept.

* `Piecewise.next?`: the next piece of an input.
* `Piecewise.pieces`: all pieces.
* `History.add`, `History.read`, `History.render`
-/

namespace Polish.Piecewise

/-- The size of the reader's buffer. -/
def bufferSize : Nat := 4096

/-- A piece of input. -/
structure Piece where
  text : Bytes
  /-- Does the line go on in the next piece? -/
  continues : Bool
deriving DecidableEq, Repr

/-- A line without its end. -/
def chomp (line : Bytes) : Bytes :=
  if line.getLast? = some 0x0D then line.dropLast else line

/-- The next piece and the number of bytes it takes; a buffer that ends in a carriage return gives
it back, as a line feed may follow. -/
def next? (input : Bytes) : Option (Piece × Nat) :=
  if input.isEmpty then none
  else
    let buffer := input.take bufferSize
    let line := buffer.takeWhile (· ≠ Bytes.newline)
    if line.length < buffer.length then some (⟨chomp line, false⟩, line.length + 1)
    else if buffer.length < bufferSize then some (⟨buffer, false⟩, buffer.length)
    else
      let piece := chomp buffer
      some (⟨piece, true⟩, piece.length)

/-- The pieces of an input; `skip` bytes belong to the piece already read. -/
def piecesFrom : Nat → Bytes → List Piece
  | _, [] => []
  | skip + 1, _ :: rest => piecesFrom skip rest
  | 0, b :: rest =>
    match next? (b :: rest) with
    | none => []
    | some (piece, n) => piece :: piecesFrom (n - 1) rest

/-- The pieces of an input, in order. -/
def pieces (input : Bytes) : List Piece := piecesFrom 0 input

end Polish.Piecewise

namespace Polish.History

/-- How many lines are kept. -/
def limit : Nat := 1000

/-- The most recent lines. -/
def recent (lines : List Bytes) : List Bytes := lines.drop (lines.length - limit)

/-- Remembers a line. -/
def add (lines : List Bytes) (line : Bytes) : List Bytes :=
  if lines.getLast? = some line then lines else recent (lines ++ [line])

/-- Reads remembered lines up to the first that is bad; the result also says why reading stopped
early. `count` lines have been read. -/
def readFrom (count : Nat) : List Piecewise.Piece → List Bytes × Option Bytes
  | [] => ([], none)
  | p :: rest =>
    if p.continues then ([], some ("line " ++ Decimal.ofNat (count + 1) ++ " is too long"))
    else if !p.text.isWellFormed then
      ([], some ("invalid string at line " ++ Decimal.ofNat (count + 1)))
    else
      let (lines, fault) := readFrom (count + 1) rest
      (p.text :: lines, fault)

/-- Reads remembered lines from the contents of a file. -/
def read (contents : Bytes) : List Bytes × Option Bytes :=
  let (lines, fault) := readFrom 0 (Piecewise.pieces contents)
  (recent lines, fault)

/-- The contents of a file of remembered lines. -/
def render (lines : List Bytes) : Bytes := lines.flatMap (· ++ [Bytes.newline])

end Polish.History
