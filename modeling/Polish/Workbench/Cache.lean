import Polish.Machine.Instr

/-!
# The compile cache

The code of recently compiled sources is kept. A request for a kept source makes it the most recent
one; a new source pushes out the least recent one when the cache is full.

* `Cache`, `Cache.empty`
* `Cache.get?`: asks for a source.
* `Cache.add`: keeps the code of a source.
-/

namespace Polish

/-- The kept sources with their code, the most recent first. -/
structure Cache where
  capacity : Nat
  entries : List (Bytes × List Instr)
deriving DecidableEq, Repr

namespace Cache

/-- A cache that holds nothing yet. -/
def empty (capacity : Nat) : Cache := ⟨capacity, []⟩

/-- The code kept for a source, and the cache after the request. -/
def get? (c : Cache) (source : Bytes) : Option (List Instr × Cache) :=
  match c.entries.find? (·.1 == source) with
  | none => none
  | some e => some (e.2, { c with entries := e :: c.entries.filter (·.1 != source) })

/-- The cache after the code of a source is added. -/
def add (c : Cache) (source : Bytes) (code : List Instr) : Cache :=
  { c with entries := ((source, code) :: c.entries).take c.capacity }

end Cache

end Polish
