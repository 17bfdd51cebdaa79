import Polish.Bytes

/-!
# Source ranges

A span says where in which file a piece of text stands: from its first character up to, and not
including, its end. Lines and columns count from one. The zero span stands for "nowhere".

* `Span`, `Span.zero`, `Span.isZero`
* `Span.through`: from the start of one span to the end of another.
* `Span.toOption`: the span, if it says something.
-/

namespace Polish

/-- A range of source text. -/
structure Span where
  file : Bytes
  startLine : Int
  startCol : Int
  endLine : Int
  endCol : Int
deriving DecidableEq, Repr

namespace Span

/-- The span of something that was not read from a file. -/
def zero : Span := ⟨[], 0, 0, 0, 0⟩

/-- Does the span say nothing? -/
def isZero (s : Span) : Bool := s == zero

@[simp] theorem isZero_zero : isZero zero = true := rfl

theorem isZero_iff {s : Span} : s.isZero = true ↔ s = zero := by simp [isZero]

/-- The range from the start of `first` to the end of `last`. -/
def through (first last : Span) : Span :=
  { first with endLine := last.endLine, endCol := last.endCol }

@[simp] theorem through_self (s : Span) : s.through s = s := rfl

/-- The span itself, or nothing for the zero span. -/
def toOption (s : Span) : Option Span := if s.isZero then none else some s

@[simp] theorem toOption_zero : toOption zero = none := rfl

end Span

end Polish
