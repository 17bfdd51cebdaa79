import Polish.Json
import Polish.Text.Rune

/-!
# Writing JSON

Machine-readable output is JSON without blanks. Characters that would be special inside a web page
are escaped, and U+FFFD is written for a stray byte.

* `Json.quote`: a string.
* `Json.render`: the text of a value.
-/

namespace Polish

namespace Json

/-- A numbered escape. -/
def numbered (n : Nat) : Bytes := "\\u" ++ Decimal.hex 4 n

/-- One character or stray byte inside a string. -/
def escape : Rune → Bytes
  | .stray _ => String.utf8EncodeChar Rune.replacement
  | .char c =>
    match c with
    | '"' => "\\\""
    | '\\' => "\\\\"
    | '\n' => "\\n"
    | '\r' => "\\r"
    | '\t' => "\\t"
    | '<' | '>' | '&' | '\u2028' | '\u2029' => numbered c.toNat
    | _ =>
      if c.toNat = 0x08 then "\\b"
      else if c.toNat = 0x0C then "\\f"
      else if c.toNat < 0x20 then numbered c.toNat
      else String.utf8EncodeChar c

/-- A string between quotes. -/
def quote (text : Bytes) : Bytes :=
  "\"" ++ text.runes.flatMap escape ++ "\""

mutual

/-- The text of a value. -/
def render : Json → Bytes
  | null => "null"
  | bool true => "true"
  | bool false => "false"
  | num literal => literal
  | str text => quote text
  | arr items => "[" ++ renderItems items ++ "]"
  | obj members => "\x7b" ++ renderMembers members ++ "\x7d"

/-- The items of an array, with commas between them. -/
def renderItems : List Json → Bytes
  | [] => []
  | [x] => x.render
  | x :: rest => x.render ++ "," ++ renderItems rest

/-- The members of an object, with commas between them. -/
def renderMembers : List (Bytes × Json) → Bytes
  | [] => []
  | [(k, x)] => quote k ++ ":" ++ x.render
  | (k, x) :: rest => quote k ++ ":" ++ x.render ++ "," ++ renderMembers rest

end

end Json

end Polish
