import Polish.Fault
import Polish.Text.LowerCase

/-!
# Log records

While it works the program keeps a log. A record has a level, a message and named values; values
inherited from the surroundings come first. On a terminal a record is one coloured line.

* `LogLevel`, `LogLevel.ofName?`
* `LogRecord`, `Logger.record`
* `LogRecord.line`: the record as a line.
-/

namespace Polish

/-- How serious a record is. -/
inductive LogLevel where
  | crit
  | error
  | warn
  | info
  | debug
deriving DecidableEq, Repr

namespace LogLevel

/-- The rank of a level: 0 is the most serious. -/
def rank : LogLevel → Nat
  | crit => 0
  | error => 1
  | warn => 2
  | info => 3
  | debug => 4

/-- The short name of a level. -/
def name : LogLevel → Bytes
  | crit => "crit"
  | error => "eror"
  | warn => "warn"
  | info => "info"
  | debug => "dbug"

/-- The short name in capitals. -/
def label : LogLevel → Bytes
  | crit => "CRIT"
  | error => "EROR"
  | warn => "WARN"
  | info => "INFO"
  | debug => "DBUG"

/-- The number of the level's colour. -/
def colour : LogLevel → Bytes
  | crit => "35"
  | error => "31"
  | warn => "33"
  | info => "32"
  | debug => "36"

/-- The names a user may write for the levels. -/
def names : List (Bytes × LogLevel) :=
  [("debug", debug), ("dbug", debug), ("info", info), ("warn", warn), ("error", error),
    ("eror", error), ("crit", crit)]

/-- The level with a name, in any case. -/
def ofName? (text : Bytes) : Option LogLevel := names.lookup text.toLower

end LogLevel

/-- A log entry. -/
structure LogRecord where
  level : LogLevel
  message : Bytes
  pairs : List (Bytes × Bytes)
deriving DecidableEq, Repr

/-- What every record of a part of the program starts with. -/
structure Logger where
  context : List (Bytes × Bytes)
deriving DecidableEq, Repr

namespace Logger

/-- The logger of a part inside this one. -/
def child (l : Logger) (key value : Bytes) : Logger := ⟨l.context ++ [(key, value)]⟩

/-- A record of this logger. -/
def record (l : Logger) (level : LogLevel) (message : Bytes) (pairs : List (Bytes × Bytes)) :
    LogRecord :=
  ⟨level, message, l.context ++ pairs⟩

/-- A record for developers. -/
def debug (l : Logger) (message : Bytes) (pairs : List (Bytes × Bytes)) : LogRecord :=
  l.record .debug message pairs

/-- A record that something may be wrong. -/
def warn (l : Logger) (message : Bytes) (pairs : List (Bytes × Bytes)) : LogRecord :=
  l.record .warn message pairs

end Logger

namespace LogRecord

/-- Messages are filled up with blanks to this width. -/
def messageWidth : Nat := 40

/-- A value that holds one of these characters is quoted. -/
def needsQuotes (c : Char) : Bool := c.toNat ≤ 0x20 || c = '=' || c = '"'

/-- A character that is written with a backslash, and what follows the backslash. -/
def escape? (c : Char) : Option Char :=
  match c with
  | '\\' | '"' => some c
  | '\n' => some 'n'
  | '\r' => some 'r'
  | '\t' => some 't'
  | _ => none

/-- A character inside a value. -/
def escape (c : Char) : Bytes :=
  match escape? c with
  | some letter => [Bytes.ascii '\\', Bytes.ascii letter]
  | none => String.utf8EncodeChar c

/-- A value: quoted if it holds a blank, a control character, an equals sign or a quote. -/
def showValue (value : Bytes) : Bytes :=
  let chars := value.chars
  if chars.any needsQuotes then "\"" ++ chars.flatMap escape ++ "\""
  else if chars.any fun c => (escape? c).isSome then chars.flatMap escape
  else value

/-- A text in a colour. -/
def paint (colour text : Bytes) : Bytes := "\x1b[" ++ colour ++ "m" ++ text ++ "\x1b[0m"

/-- A named value in the colour of the level. -/
def showPair (level : LogLevel) (pair : Bytes × Bytes) : Bytes :=
  paint level.colour pair.1 ++ "=" ++ showValue pair.2

/-- The record as a line, for a given time of day. -/
def line (time : Bytes) (r : LogRecord) : Bytes :=
  let padding :=
    if r.pairs.isEmpty then [] else Bytes.spaces (messageWidth - r.message.length)
  paint r.level.colour r.level.label ++ "[" ++ time ++ "] " ++ r.message ++ " " ++ padding
    ++ Bytes.join " " (r.pairs.map (showPair r.level)) ++ "\n"

/-- The lines of the records that are serious enough. -/
def lines (time : Bytes) (limit : LogLevel) (records : List LogRecord) : Bytes :=
  (records.filter fun r => r.level.rank ≤ limit.rank).flatMap (line time)

end LogRecord

end Polish
