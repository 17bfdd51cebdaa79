/-!
# Character ranges

A class of characters is given as a table of closed ranges of character numbers.

* `inRanges`: membership in a table.
-/

namespace Polish.Text

/-- Is the character in one of the closed ranges? -/
def inRanges (table : List (Nat × Nat)) (c : Char) : Bool :=
  table.any fun r => r.1 ≤ c.toNat && c.toNat ≤ r.2

end Polish.Text
