import Polish.Fault
import Polish.NameMap

/-!
# The symbol table

A store binds names to their last assigned value. Reading a name without a value is a fault, never
a zero.

* `Store`, `Store.get`
-/

namespace Polish

/-- The values of names. -/
abbrev Store := NameMap Int64

/-- The value of a name, or the fault of reading an unbound name. -/
def Store.get (s : Store) (name : Bytes) : Except Fault Int64 :=
  match s.get? name with
  | some v => .ok v
  | none => .error (.unbound name)

end Polish
