import Polish.Text.Decimal

/-!
# Points in time

A time is written as a date, a time of day with an optional fraction of a second, and a distance
from universal time. Times are compared in nanoseconds; a difference that does not fit in 64 bits is
the largest or smallest that does.

* `Instant`: nanoseconds since the start of the year 0.
* `Instant.parse?`: the time of a text.
* `Instant.milliseconds`: the difference of two times.
* `Instant.render`, `Instant.clock`: a time as text.
-/

namespace Polish

/-- Nanoseconds since the start of the year 0. -/
structure Instant where
  nanos : Int
deriving DecidableEq, Repr

namespace Instant

/-! ### The calendar -/

/-- Has the year a leap day? -/
def isLeap (year : Nat) : Bool := year % 4 == 0 && (year % 100 != 0 || year % 400 == 0)

/-- The number of days in a month. -/
def daysIn (year month : Nat) : Nat :=
  match month with
  | 2 => if isLeap year then 29 else 28
  | 4 | 6 | 9 | 11 => 30
  | _ => 31

/-- The number of days before a year. -/
def daysBeforeYear (year : Nat) : Nat :=
  365 * year + (year + 3) / 4 - (year + 99) / 100 + (year + 399) / 400

/-- The number of days of a year before a month. -/
def daysBeforeMonth (year month : Nat) : Nat :=
  (List.range (month - 1)).foldl (fun days m => days + daysIn year (m + 1)) 0

/-! ### Reading -/

/-- A number of exactly `width` digits, and what follows. -/
def digits? (width : Nat) (text : Bytes) : Option (Nat × Bytes) :=
  let ds := text.take width
  if ds.length = width && ds.all Decimal.isDigit then some (Decimal.value ds, text.drop width)
  else none

/-- A number of two digits, or of one. -/
def oneOrTwo? (text : Bytes) : Option (Nat × Bytes) :=
  match digits? 2 text with
  | some r => some r
  | none => digits? 1 text

/-- A given byte, and what follows. -/
def byte? (c : Char) : Bytes → Option Bytes
  | b :: rest => if b = Bytes.ascii c then some rest else none
  | [] => none

/-- A fraction of a second in nanoseconds; digits after the ninth are dropped. -/
def fraction (text : Bytes) : Nat × Bytes :=
  match text with
  | b :: rest =>
    let ds := rest.takeWhile Decimal.isDigit
    if (b = 0x2E || b = 0x2C) && !ds.isEmpty then
      let kept := ds.take 9
      (Decimal.value kept * Nat.pow 10 (9 - kept.length), rest.drop ds.length)
    else (0, text)
  | [] => (0, [])

/-- The distance from universal time in seconds, at the end of a text. -/
def zone? (text : Bytes) : Option Int :=
  match text with
  | [0x5A] => some 0
  | sign :: rest => do
    let (hours, rest) ← digits? 2 rest
    let rest ← byte? ':' rest
    let (minutes, rest) ← digits? 2 rest
    let seconds : Int := (hours * 60 + minutes) * 60
    if !rest.isEmpty || 24 < hours || 60 < minutes then none
    else if sign = 0x2B then some seconds
    else if sign = 0x2D then some (-seconds)
    else none
  | [] => none

/-- The time of a text. -/
def parse? (text : Bytes) : Option Instant := do
  let (year, rest) ← digits? 4 text
  let rest ← byte? '-' rest
  let (month, rest) ← digits? 2 rest
  let rest ← byte? '-' rest
  let (day, rest) ← digits? 2 rest
  let rest ← byte? 'T' rest
  let (hour, rest) ← oneOrTwo? rest
  let rest ← byte? ':' rest
  let (minute, rest) ← digits? 2 rest
  let rest ← byte? ':' rest
  let (second, rest) ← digits? 2 rest
  let (nanos, rest) := fraction rest
  let offset ← zone? rest
  if month = 0 || 12 < month || day = 0 || daysIn year month < day || 24 ≤ hour || 60 ≤ minute
      || 60 ≤ second then none
  else
    let days := daysBeforeYear year + daysBeforeMonth year month + (day - 1)
    let seconds : Int := ((days * 24 + hour) * 60 + minute) * 60 + second
    some ⟨(seconds - offset) * 1000000000 + nanos⟩

/-! ### Differences -/

/-- A number of nanoseconds, brought into the range of 64 bits. -/
def clamp (n : Int) : Int := max (-9223372036854775808) (min n 9223372036854775807)

/-- The milliseconds from one time to another, cut toward zero. -/
def milliseconds (start stop : Instant) : Int := (clamp (stop.nanos - start.nanos)).tdiv 1000000

/-! ### Writing -/

/-- The time that lies some nanoseconds after the start of 1970. -/
def ofEpochNanos (nanos : Int) : Instant := ⟨(daysBeforeYear 1970 * 86400000000000 : Nat) + nanos⟩

/-- The last year that starts on or before a day. The mean length of a year gives it up to one. -/
def yearOfDay (day : Nat) : Nat :=
  let near := day * 400 / 146097
  if daysBeforeYear (near + 1) ≤ day then near + 1
  else if daysBeforeYear near ≤ day then near
  else near - 1

/-- The month of a year that has a day, which is counted from the start of the year. -/
def monthOfDay (year day : Nat) : Nat :=
  ((List.range 12).filter fun m => daysBeforeMonth year (m + 1) ≤ day).length

/-- A number with leading zeros. -/
def padded (width n : Nat) : Bytes :=
  let digits := Decimal.ofNat n
  Bytes.repeated (width - digits.length) 0x30 ++ digits

/-- A fraction of a second with its point, without the zeros at its end. -/
def fractionText (nanos : Nat) : Bytes :=
  let digits := ((padded 9 nanos).reverse.dropWhile (· = 0x30)).reverse
  if digits.isEmpty then [] else 0x2E :: digits

/-- The month and the day of the month, with a dash between them, after the year. -/
def dateParts (t : Instant) : Bytes × Bytes :=
  let day := (t.nanos / 86400000000000).toNat
  let year := yearOfDay day
  let ofYear := day - daysBeforeYear year
  let month := monthOfDay year ofYear
  (padded 4 year, padded 2 month ++ "-" ++ padded 2 (ofYear - daysBeforeMonth year month + 1))

/-- The time of day, in whole seconds. -/
def timeOfDay (t : Instant) : Bytes :=
  let second := (t.nanos / 1000000000).toNat % 86400
  padded 2 (second / 3600) ++ ":" ++ padded 2 (second / 60 % 60) ++ ":" ++ padded 2 (second % 60)

/-- A time in universal time. -/
def render (t : Instant) : Bytes :=
  let (year, date) := t.dateParts
  year ++ "-" ++ date ++ "T" ++ t.timeOfDay ++ fractionText (t.nanos % 1000000000).toNat ++ "Z"

/-- A time as log lines show it. -/
def clock (t : Instant) : Bytes := t.dateParts.2 ++ "|" ++ t.timeOfDay

end Instant

end Polish
