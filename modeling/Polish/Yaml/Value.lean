import Polish.Double.Shortest
import Polish.Text.Quoted
import Polish.Yaml.Datum

/-!
# Values of any shape

Where a document may hold anything, it gives a value: a datum, a list, or a table. A table binds
keys to values, each key once; its keys are all texts, or data of any kind. Values are shown with
their tables in the order of the keys.

A text is put together on a page, which is a text whose last byte comes first.

* `Yaml.Value`: a value.
* `Yaml.Value.put`: binds a key.
* `Yaml.Value.render`: a value as text.
* `Yaml.Value.describe`: a value with its types and quotes.
-/

namespace Polish.Yaml

/-- A value of any shape. -/
inductive Value where
  | datum (d : Datum)
  | list (items : List Value)
  /-- A table in the order of its keys, and whether these are texts. -/
  | table (textKeys : Bool) (entries : List (Datum × Value))
deriving Repr

namespace Value

/-- Nothing. -/
def null : Value := .datum .null

/-- Binds a key in a table that is in the order of its keys; an entry with the same key is
replaced. -/
def put (key : Datum) (value : Value) : List (Datum × Value) → List (Datum × Value)
  | [] => [(key, value)]
  | (k, v) :: rest =>
    if key.same k then (key, value) :: rest
    else if key.compare k = .lt then (key, value) :: (k, v) :: rest
    else (k, v) :: put key value rest

/-- A page with a text added. -/
def onPage (text page : Bytes) : Bytes := text.reverseAux page

/-! ### Plain text -/

/-- A datum as text. -/
def renderDatum : Datum → Bytes
  | .null => "<nil>"
  | .bool b => if b then "true" else "false"
  | .int n => Decimal.ofInt n
  | .real x => x.render
  | .time t => t.render
  | .text t => t

/-- How parts are put together: what stands before a list, before a table with text keys and before
any other, at the end of each, between two parts, and how a datum is shown. -/
structure Style where
  listStart : Bytes
  textTableStart : Bytes
  tableStart : Bytes
  listEnd : Bytes
  tableEnd : Bytes
  between : Bytes
  datum : Datum → Bytes

/-- Lists and tables in brackets, with blanks between the parts. -/
def Style.plain : Style := ⟨"[", "map[", "map[", "]", "]", " ", renderDatum⟩

mutual

/-- Writes a value on a page. -/
def write (s : Style) : Value → Bytes → Bytes
  | .datum d, page => onPage (s.datum d) page
  | .list items, page => onPage s.listEnd (writeItems s true items (onPage s.listStart page))
  | .table textKeys entries, page =>
    let start := if textKeys then s.textTableStart else s.tableStart
    onPage s.tableEnd (writeEntries s true entries (onPage start page))

/-- Writes the items of a list on a page. -/
def writeItems (s : Style) (first : Bool) : List Value → Bytes → Bytes
  | [], page => page
  | item :: rest, page =>
    writeItems s false rest (write s item (if first then page else onPage s.between page))

/-- Writes the entries of a table on a page. -/
def writeEntries (s : Style) (first : Bool) : List (Datum × Value) → Bytes → Bytes
  | [], page => page
  | (key, value) :: rest, page =>
    let page := onPage (s.datum key) (if first then page else onPage s.between page)
    writeEntries s false rest (write s value (onPage ":" page))

end

/-- A value as text. -/
def render (v : Value) : Bytes := (write .plain v []).reverse

/-! ### With types and quotes -/

/-- The name of a month. -/
def monthName (month : Nat) : Bytes :=
  let names : List Bytes :=
    ["January", "February", "March", "April", "May", "June", "July", "August", "September",
      "October", "November", "December"]
  names.getD (month - 1) []

/-- A time, part by part. -/
def describeTime (t : Timestamp) : Bytes :=
  let zone : Bytes := match t.zone with
    | .universal => "time.UTC"
    | .home => "time.Local"
    | .ahead _ => "time.Location(\"\")"
  "time.Date(" ++ Bytes.join ", " ([Decimal.ofNat t.year, "time." ++ monthName t.month]
    ++ [t.day, t.hour, t.minute, t.second, t.nanos].map Decimal.ofNat ++ [zone]) ++ ")"

/-- The hexadecimal digits of a number. -/
def hexDigits (n : Nat) : Bytes := (Nat.toDigits 16 n).map Bytes.ascii

/-- A datum as it would be written in a program. -/
def describeDatum : Datum → Bytes
  | .null => "interface \x7b\x7d(nil)"
  | .int n => if Decimal.fitsInt64 n then Decimal.ofInt n else "0x" ++ hexDigits n.natAbs
  | .time t => describeTime t
  | .text t => Quoted.encode t
  | d => renderDatum d

/-- Lists and tables with their types, and commas between the parts. -/
def Style.typed : Style :=
  ⟨"[]interface \x7b\x7d\x7b", "map[string]interface \x7b\x7d\x7b",
    "map[interface \x7b\x7d]interface \x7b\x7d\x7b", "\x7d", "\x7d", ", ", describeDatum⟩

/-- A value as it would be written in a program. -/
def describe (v : Value) : Bytes := (write .typed v []).reverse

end Value

end Polish.Yaml
