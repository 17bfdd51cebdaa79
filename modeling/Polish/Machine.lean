import Polish.Arith
import Polish.Event
import Polish.Machine.Instr
import Polish.Store

/-!
# The stack machine

The machine has an operand stack, a symbol table and the values printed so far. Every run starts
from an empty machine. The first failing instruction stops the run; the operands it has popped are
gone.

* `Machine`, `Machine.empty`, `Machine.reset`
* `Machine.step`: one instruction.
* `Machine.runFrom`, `Machine.run`: a program.
* `Machine.rerun`: a program on a machine that may have been used before.
-/

namespace Polish

/-- The state of the machine. -/
structure Machine where
  /-- The operands, the last pushed first. -/
  stack : List Int64
  store : Store
  /-- The printed values, in order. -/
  prints : List Int64
deriving DecidableEq, Repr

/-- An instruction that failed: the state it left, and why. -/
structure Stuck where
  machine : Machine
  failure : Failure
deriving DecidableEq, Repr

/-- The report of an executed instruction, with the depth of the stack after it. -/
structure StepEvent where
  pc : Nat
  instr : Instr
  depth : Nat
deriving DecidableEq, Repr

/-- A finished run: the state it left, the executed instructions, and why it stopped early if it
did. -/
structure MachineRun where
  machine : Machine
  steps : List StepEvent
  failure : Option Failure
deriving DecidableEq, Repr

namespace Machine

/-- The machine before a run. -/
def empty : Machine := ⟨[], .empty, []⟩

/-- Empties the stack, the table and the recorded prints. -/
def reset (m : Machine) : Machine := { m with stack := [], store := .empty, prints := [] }

@[simp] theorem reset_eq_empty (m : Machine) : m.reset = empty := rfl

/-- Adds a value to the stack. -/
def push (v : Int64) (m : Machine) : Machine := { m with stack := v :: m.stack }

/-- Takes the last value from the stack for an instruction. -/
def pop (i : Instr) (m : Machine) : Except Stuck (Int64 × Machine) :=
  match m.stack with
  | [] => .error ⟨m, .ofFault (.stackUnderflow i.text)⟩
  | v :: rest => .ok (v, { m with stack := rest })

/-- Pushes a result, or reports the fault that took its place. -/
def finish (m : Machine) : Except Fault Int64 → Except Stuck Machine
  | .ok v => .ok (m.push v)
  | .error f => .error ⟨m, .ofFault f⟩

/-- Executes one instruction. -/
def step (i : Instr) (m : Machine) : Except Stuck Machine :=
  match i.operation? with
  | none => .error ⟨m, .ofFault (.unknownInstruction i.opcode.toNat)⟩
  | some .push => .ok (m.push i.value)
  | some .load => m.finish (Store.get m.store i.name)
  | some .store => do
    let (v, m) ← m.pop i
    return { m with store := m.store.put i.name v }
  | some (.binary op) => do
    let (b, m) ← m.pop i
    let (a, m) ← m.pop i
    m.finish (op.apply a b)
  | some (.unary op) => do
    let (a, m) ← m.pop i
    m.finish (op.apply a)
  | some .print => do
    let (v, m) ← m.pop i
    return { m with prints := m.prints ++ [v] }

/-- Executes the rest of a program from the instruction with number `pc`, when `reports` reports
have been made. -/
def runFrom (watch : Watch) (pc reports : Nat) : List Instr → Machine → MachineRun
  | [], m => ⟨m, [], none⟩
  | i :: rest, m =>
    if watch.canceled reports then ⟨m, [], some (.ofFault .canceled)⟩
    else match m.step i with
      | .error stuck => ⟨stuck.machine, [], some stuck.failure⟩
      | .ok m =>
        let r := runFrom watch (pc + 1) (if watch.traced then reports + 1 else reports) rest m
        { r with steps := ⟨pc, i, m.stack.length⟩ :: r.steps }

/-- Runs a program on an empty machine, when `reports` reports have been made. -/
def run (watch : Watch) (reports : Nat) (code : List Instr) : MachineRun :=
  runFrom watch 0 reports code empty

/-- Runs a program on a machine that may have been used before, by single instructions or other runs;
it is reset first. -/
def rerun (m : Machine) (watch : Watch) (reports : Nat) (code : List Instr) : MachineRun :=
  runFrom watch 0 reports code m.reset

/-- What a machine was used for before has no part in a run. -/
theorem rerun_eq_run (m : Machine) (watch : Watch) (reports : Nat) (code : List Instr) :
    m.rerun watch reports code = run watch reports code := rfl

/-- The line written for a printed value. -/
def printLine (v : Int64) : Bytes := "*** " ++ Decimal.ofInt64 v ++ "\n"

end Machine

end Polish
