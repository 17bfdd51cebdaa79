import Polish.Double.Reader
import Polish.Text.Base64
import Polish.Timestamp
import Polish.Yaml.Node

/-!
# What YAML scalars stand for

A plain scalar may stand for nothing, a truth value, a number or a time; all others are text. A tag
can ask for one of these kinds, and a tag that is not one of the language makes a text of any scalar.

* `Yaml.Datum`: what a scalar stands for.
* `Yaml.Datum.ofPlain`: what a plain scalar stands for.
* `Yaml.Datum.ofScalar`: what a scalar with a tag stands for.
* `Yaml.Datum.same`, `Yaml.Datum.compare`: data as keys.
-/

namespace Polish.Yaml

/-- What a scalar stands for. -/
inductive Datum where
  | null
  | bool (b : Bool)
  | int (n : Int)
  | real (x : Double)
  | time (t : Timestamp)
  | text (text : Bytes)
deriving DecidableEq, Repr

namespace Datum

/-- The tag of a kind of data. -/
def tag : Datum → Bytes
  | null => "!!null"
  | bool _ => "!!bool"
  | int _ => "!!int"
  | real _ => "!!float"
  | time _ => "!!timestamp"
  | text _ => "!!str"

/-- The plain scalars with a meaning of their own. -/
def words : List (List Bytes × Datum) :=
  [(["true", "True", "TRUE"], bool true), (["false", "False", "FALSE"], bool false),
    (["", "~", "null", "Null", "NULL"], null), ([".nan", ".NaN", ".NAN"], real .nan),
    ([".inf", ".Inf", ".INF", "+.inf", "+.Inf", "+.INF"], real (.infinite false)),
    (["-.inf", "-.Inf", "-.INF"], real (.infinite true))]

/-- The datum of a plain scalar that is one of the words. -/
def ofWord? (text : Bytes) : Option Datum := (words.find? fun w => w.1.contains text).map Prod.snd

/-! ### Whole numbers -/

/-- The value of a digit. -/
def digit? (b : UInt8) : Option Nat :=
  if Decimal.isDigit b then some (b.toNat - 0x30)
  else if 0x61 ≤ b && b ≤ 0x66 then some (b.toNat - 0x57)
  else if 0x41 ≤ b && b ≤ 0x46 then some (b.toNat - 0x37)
  else none

/-- The number that digits of a base stand for. -/
def inBase? (base : Nat) (digits : Bytes) : Option Nat :=
  if digits.isEmpty then none
  else digits.foldlM (fun n b =>
    (digit? b).bind fun d => if d < base then some (base * n + d) else none) 0

/-- A whole number without sign: decimal, or in the base that its start names. -/
def natural? : Bytes → Option Nat
  | 0x30 :: mark :: digits =>
    if mark = 0x78 || mark = 0x58 then inBase? 16 digits
    else if mark = 0x62 || mark = 0x42 then inBase? 2 digits
    else if mark = 0x6F || mark = 0x4F then inBase? 8 digits
    else inBase? 8 (mark :: digits)
  | digits => inBase? 10 digits

/-- A number with a sign that fits in 64 bits. -/
def signed? (negative : Bool) (n : Nat) : Option Int :=
  let n : Int := if negative then -n else n
  if Decimal.fitsInt64 n then some n else none

/-- A whole number of 64 bits, with a sign or without. -/
def integer? (text : Bytes) : Option Int :=
  let (sign, digits) := Double.splitSign text
  (natural? digits).bind fun n =>
    match sign with
    | some negative => signed? negative n
    | none => if n < 18446744073709551616 then some n else none

/-- A binary or octal number whose sign stands after the mark of the base. -/
def markedInteger? : Bytes → Option Int
  | 0x30 :: mark :: rest =>
    let (sign, digits) := Double.splitSign rest
    let base? := if mark = 0x62 then some 2 else if mark = 0x6F then some 8 else none
    base?.bind fun base => (inBase? base digits).bind (signed? (sign = some true))
  | _ => none

/-! ### Times -/

/-- The ways to write a time. The parts of a date and of a time of day need no leading zeros. -/
def timeLayouts : List Layout :=
  let date := Layout.date true
  let clock := Layout.clock true
  [date ++ .mark 'T' :: clock ++ [.zone], date ++ .mark 't' :: clock ++ [.zone],
    date ++ .blanks :: clock, date]

/-- The time that a text stands for: a year of four digits comes first. -/
def time? (text : Bytes) : Option Timestamp :=
  let year := text.takeWhile Decimal.isDigit
  if year.length = 4 && text[4]? = some 0x2D then
    timeLayouts.findSome? fun layout => (layout.parse text).toOption
  else none

/-! ### Plain scalars -/

/-- The byte that may stand between digits. -/
def underscore : UInt8 := 0x5F

/-- Does every underscore stand between two digits? -/
def underscoresFit : Bool → Bytes → Bool
  | _, [] => true
  | afterDigit, b :: rest =>
    if b = underscore then
      afterDigit && rest.head?.any Decimal.isDigit && underscoresFit false rest
    else underscoresFit (Decimal.isDigit b) rest

/-- What a plain scalar that starts with a digit or a sign stands for. It is a time only if `timed`.
Underscores in numbers do not count. -/
def ofNumeral (timed : Bool) (text : Bytes) : Datum :=
  let digits := text.filter (· ≠ underscore)
  match if timed then time? text else none with
  | some t => .time t
  | none =>
    match integer? digits with
    | some n => .int n
    | none =>
      match Double.read? digits with
      | some x => .real x
      | none => ((markedInteger? digits).map .int).getD (.text text)

/-- What a plain scalar that starts with a point stands for. -/
def ofFraction (text : Bytes) : Datum :=
  if underscoresFit false text then
    ((Double.read? (text.filter (· ≠ underscore))).map .real).getD (.text text)
  else .text text

/-- What a plain scalar stands for. -/
def ofPlain (timed : Bool) (text : Bytes) : Datum :=
  match ofWord? text, text with
  | some d, _ => d
  | none, [] => .null
  | none, b :: _ =>
    if b = 0x2E then ofFraction text
    else if Decimal.isDigit b || b = 0x2B || b = 0x2D then ofNumeral timed text
    else .text text

/-! ### Tags -/

/-- Why a text cannot be of a kind. -/
def mismatch (d : Datum) (text wanted : Bytes) : Bytes :=
  "cannot decode " ++ d.tag ++ " `" ++ text ++ "` as a " ++ wanted

/-- The kinds that a tag can ask for. -/
def kinds : List Bytes := ["!!bool", "!!int", "!!float", "!!null", "!!timestamp"]

/-- A plain scalar of the kind that a tag asks for. A whole number of 64 bits with a sign will do for
a number with a fraction. -/
def ofKind (wanted text : Bytes) : Except Bytes Datum :=
  match ofPlain (wanted = "!!timestamp") text with
  | .int n =>
    if wanted = "!!int" then .ok (.int n)
    else match if wanted = "!!float" && Decimal.fitsInt64 n then
        Double.ofRatio? (n < 0) n.natAbs 1 else none with
      | some x => .ok (.real x)
      | none => .error (mismatch (.int n) text wanted)
  | d => if d.tag = wanted then .ok d else .error (mismatch d text wanted)

/-- What a scalar with a tag stands for, or why it cannot be of that kind. -/
def ofScalar (tag : Option Bytes) (plain : Bool) (text : Bytes) : Except Bytes Datum :=
  match tag with
  | none => .ok (if plain then ofPlain true text else .text text)
  | some wanted =>
    if wanted = "!!binary" then
      match Base64.decode? text with
      | some bytes => .ok (.text bytes)
      | none => .error "!!binary value contains invalid base64 data"
    else if kinds.contains wanted then ofKind wanted text
    else .ok (.text text)

/-! ### Data as keys -/

/-- Are two data the same key? What is no number is never the same. -/
def same : Datum → Datum → Bool
  | null, null => true
  | bool a, bool b => a = b
  | int a, int b => a = b
  | real .nan, _ => false
  | real a, real b => a.compare b = .eq
  | time a, time b => a.same b
  | text a, text b => a = b
  | _, _ => false

/-- The place of a kind among the others. Numbers that need all 64 bits are a kind of their own. -/
def rank : Datum → Nat
  | null => 0
  | bool _ => 1
  | real _ => 2
  | int n => if Decimal.fitsInt64 n then 3 else 5
  | text _ => 4
  | time _ => 6

/-- The order of keys: by kind, then by value. -/
def compare (a b : Datum) : Ordering :=
  match a, b with
  | bool a, bool b => Ord.compare a.toNat b.toNat
  | int a, int b => (Ord.compare (int a).rank (int b).rank).then (Ord.compare a b)
  | real a, real b => Double.compare a b
  | time a, time b => Timestamp.compare a b
  | text a, text b => Ord.compare a b
  | a, b => Ord.compare a.rank b.rank

end Datum

/-! ### Nodes and their tags -/

namespace Node

/-- The tag of a node that is no alias: the one that is written, or the one of its kind. -/
def ownTag : Node → Bytes
  | .scalar _ tag plain text =>
    tag.getD (if !plain then "!!str" else if text = "<<" then "!!merge"
      else (Datum.ofPlain true text).tag)
  | .sequence _ tag _ => tag.getD "!!seq"
  | .mapping _ tag _ => tag.getD "!!map"
  | .alias _ _ _ _ => []

/-- The text of a scalar or the name of an alias; collections have none. -/
def text : Node → Bytes
  | .scalar _ _ _ text => text
  | .alias _ name _ _ => name
  | .sequence _ _ _ | .mapping _ _ _ => []

end Node

/-- The tag of a node, or of the node that it stands for. -/
def Document.tag (d : Document) : Node → Bytes
  | .alias _ _ _ target => (d.target target).ownTag
  | node => node.ownTag

end Polish.Yaml
