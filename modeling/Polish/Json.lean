import Polish.Text.Decimal

/-!
# JSON values

* `Json`: a value. A number is kept as it is written, and the members of an object keep their order.
* `Json.int`: an integer.
-/

namespace Polish

/-- A JSON value. -/
inductive Json where
  | null
  | bool (b : Bool)
  | num (literal : Bytes)
  | str (text : Bytes)
  | arr (items : List Json)
  | obj (members : List (Bytes × Json))

/-- An integer. -/
def Json.int (n : Int) : Json := .num (Decimal.ofInt n)

end Polish
