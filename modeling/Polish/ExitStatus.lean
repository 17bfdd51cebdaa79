import Polish.Fault

/-!
# Exit statuses

The status with which the program ends tells what kind of failure there was: 1 for misuse and
trouble with files, 2 for programs that cannot be read, 4 for programs that fail when run, and 5 if
the two ways of running a program disagree.

* `ExitStatus`, `ExitStatus.ofCode`, `ExitStatus.ofCodeName`
-/

namespace Polish

/-- How the program ends. -/
inductive ExitStatus where
  | ok
  | usage
  | unreadable
  | failed
  | mismatch
deriving DecidableEq, Repr

namespace ExitStatus

/-- The number of a status. -/
def number : ExitStatus → Nat
  | ok => 0
  | usage => 1
  | unreadable => 2
  | failed => 4
  | mismatch => 5

/-- The status for a kind of failure. -/
def ofCode : Code → ExitStatus
  | .lex | .unknownStmt | .unknownToken | .truncated | .badTarget | .trailing | .assemble =>
    unreadable
  | .io | .config => usage
  | .ast | .unbound | .divZero | .negSqrt | .canceled | .stackUnderflow | .badInstruction => failed

/-- The status for a failure's code; a code of no known kind counts as a failed run. -/
def ofCodeName (code : Bytes) : ExitStatus :=
  match Code.ofName? code with
  | some c => ofCode c
  | none => failed

/-- A status number in words. -/
def describe (n : Int) : Bytes := "exit status " ++ Decimal.ofInt n

end ExitStatus

end Polish
