import Polish.Store
import Polish.Text.Grid

/-!
# Showing a symbol table

* `Store.rows`, `Store.dumpWith`: the rows of the table, and the text with its boxes drawn in any way.
* `Store.dump`: the table as drawn after a run.
-/

namespace Polish.Store

/-- A row for each binding, ascending by name. -/
def rows (s : Store) : List (List Bytes) := s.entries.map fun e => [e.1, Decimal.ofInt64 e.2]

/-- The bindings as a table that `draw` makes of the rows. -/
def dumpWith (draw : List (List Bytes) → Bytes) (s : Store) : Bytes :=
  "Symbol table:\n" ++ if s.size = 0 then ("(empty)\n" : Bytes) else draw s.rows

/-- The bindings as a boxed table. -/
def dump (s : Store) : Bytes := s.dumpWith (Grid.render ["Name", "Value"])

end Polish.Store
