import Polish.Operator
import Polish.Text.Decimal

/-!
# Instructions

The stack machine has ten operations. An instruction is an opcode number with a number and a name,
of which an operation uses at most one; an opcode without operation is possible, and means nothing.

* `Operation` with `number`, `ofNumber?`, `mnemonic`, `ofMnemonic?`, `synopsis`
* `Operation.ofBinary?`, `Operation.ofUnary?`: the operation of a source operator.
* `Instr` with `operation?` and `text`, its line in a listing.
-/

namespace Polish

/-- What an instruction does. -/
inductive Operation where
  /-- Pushes the instruction's number. -/
  | push
  /-- Pushes the value of the instruction's name. -/
  | load
  /-- Pops a value and binds the instruction's name to it. -/
  | store
  /-- Pops the right operand, then the left one, and pushes the result. -/
  | binary (op : BinaryOp)
  /-- Pops the operand and pushes the result. -/
  | unary (op : UnaryOp)
  /-- Pops a value and prints it. -/
  | print
deriving DecidableEq, Repr

/-- What follows the mnemonic in a listing. -/
inductive Operand where
  | none
  | number
  | name
deriving DecidableEq, Repr

namespace Operation

/-- Every operation, in the order of the opcodes. -/
def all : List Operation :=
  [push, load, store, binary .add, binary .sub, binary .mul, binary .div, unary .neg, unary .sqrt,
    print]

/-- The opcode of an operation. -/
def number : Operation → UInt8
  | push => 0
  | load => 1
  | store => 2
  | binary .add => 3
  | binary .sub => 4
  | binary .mul => 5
  | binary .div => 6
  | unary .neg => 7
  | unary .sqrt => 8
  | print => 9

/-- The operation of an opcode. -/
def ofNumber? (n : UInt8) : Option Operation := all.find? (·.number == n)

@[simp] theorem ofNumber?_number (o : Operation) : ofNumber? o.number = some o := by
  match o with
  | push | load | store | print => rfl
  | binary op => cases op <;> rfl
  | unary op => cases op <;> rfl

theorem number_of_ofNumber? {n : UInt8} {o : Operation} (h : ofNumber? n = some o) :
    o.number = n := by
  simpa using List.find?_some h

/-- The name of an operation in a listing. -/
def mnemonic : Operation → Bytes
  | push => "PUSH"
  | load => "LOAD"
  | store => "STORE"
  | binary .add => "ADD"
  | binary .sub => "SUB"
  | binary .mul => "MUL"
  | binary .div => "DIV"
  | unary .neg => "NEG"
  | unary .sqrt => "SQRT"
  | print => "PRINT"

/-- The operation of a mnemonic. -/
def ofMnemonic? (word : Bytes) : Option Operation := all.find? (·.mnemonic == word)

/-- What the operation takes from its instruction. -/
def operand : Operation → Operand
  | push => .number
  | load | store => .name
  | _ => .none

/-- The listing form with a placeholder for the operand. -/
def synopsis (o : Operation) : Bytes :=
  match o.operand with
  | .none => o.mnemonic
  | .number => o.mnemonic ++ " <int>"
  | .name => o.mnemonic ++ " <name>"

/-- The operation of a binary operator, by its spelling. -/
def ofBinary? (symbol : Bytes) : Option Operation := (BinaryOp.ofSymbol? symbol).map binary

/-- The operation of a unary operator, by its spelling. -/
def ofUnary? (symbol : Bytes) : Option Operation := (UnaryOp.ofSymbol? symbol).map unary

end Operation

/-- What is shown for an opcode without operation. -/
def unknownMnemonic : Bytes := "UNKNOWN"

/-- A machine instruction. -/
structure Instr where
  opcode : UInt8
  value : Int64
  name : Bytes
deriving DecidableEq, Repr

namespace Instr

/-- The instruction of an operation without operand. -/
def plain (o : Operation) : Instr := ⟨o.number, 0, []⟩

/-- Pushes a number. -/
def push (v : Int64) : Instr := ⟨Operation.push.number, v, []⟩

/-- Pushes the value of a name. -/
def load (name : Bytes) : Instr := ⟨Operation.load.number, 0, name⟩

/-- Pops a value into a name. -/
def store (name : Bytes) : Instr := ⟨Operation.store.number, 0, name⟩

/-- Pops a value and prints it. -/
def print : Instr := plain .print

/-- What the instruction does, if it means anything. -/
def operation? (i : Instr) : Option Operation := Operation.ofNumber? i.opcode

/-- The instruction as a line of a listing. -/
def text (i : Instr) : Bytes :=
  match i.operation? with
  | none => unknownMnemonic
  | some o =>
    match o.operand with
    | .none => o.mnemonic
    | .number => o.mnemonic ++ "\t" ++ Decimal.ofInt64 i.value
    | .name => o.mnemonic ++ "\t" ++ i.name

end Instr

end Polish
