import Polish.Instant
import Polish.Text.Quoted

/-!
# Written times

A time as somebody wrote it down: the parts of the date and the time of day, and the zone they are
meant in. What a written time has to look like is given by a layout, a list of parts that follow each
other. Every part is tested as soon as it is read; only the day of the month waits for the end.

* `Timestamp`, `Zone`
* `Layout`: the parts of a written time.
* `Layout.parse`: the time of a text, or what is wrong with it.
* `Timestamp.render`: a time as text.
-/

namespace Polish

/-- The zone of a written time. -/
inductive Zone where
  /-- Universal time. -/
  | universal
  /-- The zone of the machine, which keeps universal time. -/
  | home
  /-- A zone that is some seconds ahead of universal time. -/
  | ahead (seconds : Int)
deriving DecidableEq, Repr

namespace Zone

/-- How many seconds a zone is ahead of universal time. -/
def offset : Zone → Int
  | universal | home => 0
  | ahead seconds => seconds

/-- Hours and minutes ahead of universal time, with a sign. -/
def offsetText (z : Zone) : Bytes :=
  let minutes := z.offset.natAbs / 60
  (if z.offset < 0 then "-" else "+") ++ Instant.padded 2 (minutes / 60)
    ++ Instant.padded 2 (minutes % 60)

/-- The name of a zone; most have none but their distance from universal time. -/
def name : Zone → Bytes
  | universal | home => "UTC"
  | z => z.offsetText

/-- Are two zones known to be one? Whole hours from twelve behind to fourteen ahead are; other
distances make a zone of their own each time they are written. -/
def same : Zone → Zone → Bool
  | universal, universal | home, home => true
  | ahead a, ahead b => a = b && a % 3600 = 0 && -12 * 3600 ≤ a && a ≤ 14 * 3600
  | _, _ => false

end Zone

/-- A time as it is written. -/
structure Timestamp where
  year : Nat
  month : Nat
  day : Nat
  hour : Nat
  minute : Nat
  second : Nat
  nanos : Nat
  zone : Zone
deriving DecidableEq, Repr

namespace Timestamp

/-- What holds for the parts that are not written. -/
def start : Timestamp := ⟨0, 1, 1, 0, 0, 0, 0, .universal⟩

/-- The seconds from the start of the year 0 to the time, in universal time. -/
def seconds (t : Timestamp) : Int :=
  let days := Instant.daysBeforeYear t.year + Instant.daysBeforeMonth t.year t.month + (t.day - 1)
  (((days * 24 + t.hour) * 60 + t.minute) * 60 + t.second : Nat) - t.zone.offset

/-- Is it the same point in time, in the same zone? -/
def same (a b : Timestamp) : Bool :=
  a.seconds = b.seconds && a.nanos = b.nanos && a.zone.same b.zone

/-- The order of times in tables: fractions of a second count before seconds. -/
def compare (a b : Timestamp) : Ordering :=
  (Ord.compare a.nanos b.nanos).then (Ord.compare a.seconds b.seconds)

/-- Date, time of day, distance from universal time and name of the zone. -/
def render (t : Timestamp) : Bytes :=
  Instant.padded 4 t.year ++ "-" ++ Instant.padded 2 t.month ++ "-" ++ Instant.padded 2 t.day ++ " "
    ++ Instant.padded 2 t.hour ++ ":" ++ Instant.padded 2 t.minute ++ ":"
    ++ Instant.padded 2 t.second ++ Instant.fractionText t.nanos ++ " " ++ t.zone.offsetText ++ " "
    ++ t.zone.name

/-- Why a text is no time of a layout. -/
inductive Misfit where
  /-- A part is missing, or something else stands in its place. -/
  | unfit
  /-- A part has a number that no such part can have. -/
  | outOfRange (part : Bytes)
  /-- More follows. -/
  | extra (rest : Bytes)
deriving DecidableEq, Repr

/-- What is wrong with a text. -/
def Misfit.message (text : Bytes) : Misfit → Bytes
  | unfit => "parsing time " ++ Quoted.encode text
  | outOfRange part => "parsing time " ++ Quoted.encode text ++ ": " ++ part ++ " out of range"
  | extra rest => "parsing time " ++ Quoted.encode text ++ ": extra text: " ++ Quoted.encode rest

end Timestamp

/-! ### Layouts -/

/-- A part of a written time; a number has two digits, or, where the layout is lax, one or two. -/
inductive LayoutPart where
  | mark (c : Char)
  /-- One or more blanks. -/
  | blanks
  | year
  | month (lax : Bool)
  | day (lax : Bool)
  | hour
  | minute (lax : Bool)
  | second (lax : Bool)
  /-- A fraction of a second, if there is one. -/
  | fraction
  /-- The letter of universal time, or the distance from it. -/
  | zone
deriving DecidableEq, Repr

/-- What a written time looks like. -/
abbrev Layout := List LayoutPart

namespace Layout

open Timestamp (Misfit)

/-- A number at the front of a text. -/
def number (lax : Bool) (text : Bytes) : Except Misfit (Nat × Bytes) :=
  match if lax then Instant.oneOrTwo? text else Instant.digits? 2 text with
  | some r => .ok r
  | none => .error .unfit

/-- A number within bounds. -/
def bounded (lax : Bool) (part : Bytes) (least most : Nat) (text : Bytes) :
    Except Misfit (Nat × Bytes) := do
  let (n, rest) ← number lax text
  if n < least || most < n then throw (.outOfRange part)
  return (n, rest)

/-- The zone at the front of a text. A zone that agrees with that of the machine is that zone. -/
def zoneAt (text : Bytes) : Except Misfit (Zone × Bytes) :=
  match text with
  | 0x5A :: rest => .ok (.universal, rest)
  | sign :: rest => do
    let (hours, rest) ← number false rest
    let rest ← match Instant.byte? ':' rest with
      | some rest => pure rest
      | none => throw Misfit.unfit
    let (minutes, rest) ← number false rest
    if 24 < hours then throw (.outOfRange "time zone offset hour")
    if 60 < minutes then throw (.outOfRange "time zone offset minute")
    if sign ≠ 0x2B && sign ≠ 0x2D then throw .unfit
    let distance : Int := (hours * 60 + minutes) * 60
    let distance := if sign = 0x2D then -distance else distance
    return (if distance = 0 then .home else .ahead distance, rest)
  | [] => .error .unfit

/-- Reads one part into a time. -/
def readPart (t : Timestamp) (text : Bytes) : LayoutPart → Except Misfit (Timestamp × Bytes)
  | .mark c =>
    match Instant.byte? c text with
    | some rest => .ok (t, rest)
    | none => .error .unfit
  | .blanks => if text.head? = some 0x20 then .ok (t, text.dropWhile (· = 0x20)) else .error .unfit
  | .year =>
    match Instant.digits? 4 text with
    | some (n, rest) => .ok ({ t with year := n }, rest)
    | none => .error .unfit
  | .month lax => do
    let (n, rest) ← bounded lax "month" 1 12 text
    return ({ t with month := n }, rest)
  | .day lax => do
    let (n, rest) ← number lax text
    return ({ t with day := n }, rest)
  | .hour => do
    let (n, rest) ← bounded true "hour" 0 23 text
    return ({ t with hour := n }, rest)
  | .minute lax => do
    let (n, rest) ← bounded lax "minute" 0 59 text
    return ({ t with minute := n }, rest)
  | .second lax => do
    let (n, rest) ← bounded lax "second" 0 59 text
    return ({ t with second := n }, rest)
  | .fraction =>
    let (n, rest) := Instant.fraction text
    .ok ({ t with nanos := n }, rest)
  | .zone => do
    let (z, rest) ← zoneAt text
    return ({ t with zone := z }, rest)

/-- Reads the parts of a layout into a time. -/
def parseFrom : Layout → Timestamp → Bytes → Except Misfit Timestamp
  | [], t, text =>
    if !text.isEmpty then .error (.extra text)
    else if t.day = 0 || Instant.daysIn t.year t.month < t.day then .error (.outOfRange "day")
    else .ok t
  | part :: more, t, text => do
    let (t, rest) ← readPart t text part
    parseFrom more t rest

/-- The time of a text. -/
def parse (layout : Layout) (text : Bytes) : Except Misfit Timestamp :=
  parseFrom layout Timestamp.start text

/-- A date. -/
def date (lax : Bool) : Layout := [.year, .mark '-', .month lax, .mark '-', .day lax]

/-- A time of day. -/
def clock (lax : Bool) : Layout :=
  [.hour, .mark ':', .minute lax, .mark ':', .second lax, .fraction]

end Layout

end Polish
