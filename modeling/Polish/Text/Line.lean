import Polish.Bytes

/-!
# Lines of bounded length

Listings and traces are read line by line. A line ends at a line feed; one carriage return before it
is dropped. Reading stops for good at a line of `Line.limit` bytes or more.

* `Line.limit`
* `Line.split`: the lines of a text, whatever their length.
* `Line.readable`: the lines that can be read.
* `Line.tooLong`: was reading stopped by an over-long line?
-/

namespace Polish.Line

/-- A line must be shorter than this many bytes. -/
def limit : Nat := 65536

/-- The lines of a text; the last one may lack its line feed. -/
def split (text : Bytes) : List Bytes :=
  let pieces := text.lines
  if pieces.getLast? = some [] then pieces.dropLast else pieces

/-- Can the line be read? -/
def fits (line : Bytes) : Bool := line.length < limit

/-- Drops a carriage return at the end of the line. -/
def chomp (line : Bytes) : Bytes :=
  if line.getLast? = some 0x0D then line.dropLast else line

/-- The lines before the first that is too long, without their ends. -/
def readable (text : Bytes) : List Bytes := ((split text).takeWhile fits).map chomp

/-- Is some line too long to be read? -/
def tooLong (text : Bytes) : Bool := (split text).any fun l => !fits l

end Polish.Line
