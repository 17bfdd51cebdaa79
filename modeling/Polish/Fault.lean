import Polish.Span
import Polish.Text.Decimal
import Polish.Text.Quoted

/-!
# Causes of failure

Everything that can go wrong is a `Fault`: the cause together with the offending word, name or
operand. What is shown to the user follows from the cause alone: the code of its kind, the message,
the offending value and, for some, a hint. All wording is in this module.

* `Code`: the kinds of failure, and `Code.name`, their spelling.
* `Value`: an offending value.
* `Fault` with `code`, `message`, `value?` and `hint`.
* `Failure`: a fault and where it happened. The first place given stays (`Failure.locate`).
-/

namespace Polish

/-- The kind of a failure. -/
inductive Code where
  | lex
  | unknownStmt
  | unknownToken
  | truncated
  | badTarget
  | trailing
  | ast
  | unbound
  | divZero
  | negSqrt
  | canceled
  | stackUnderflow
  | badInstruction
  | assemble
  | io
  | config
deriving DecidableEq, Repr

namespace Code

/-- Every kind of failure. -/
def all : List Code :=
  [lex, unknownStmt, unknownToken, truncated, badTarget, trailing, ast, unbound, divZero, negSqrt,
    canceled, stackUnderflow, badInstruction, assemble, io, config]

/-- The code shown to the user. -/
def name : Code → Bytes
  | lex => "E_LEX"
  | unknownStmt => "E_UNKNOWN_STMT"
  | unknownToken => "E_UNKNOWN_TOKEN"
  | truncated => "E_TRUNCATED"
  | badTarget => "E_BAD_TARGET"
  | trailing => "E_TRAILING"
  | ast => "E_AST"
  | unbound => "E_UNBOUND"
  | divZero => "E_DIV_ZERO"
  | negSqrt => "E_NEG_SQRT"
  | canceled => "E_CANCELED"
  | stackUnderflow => "E_STACK_UNDERFLOW"
  | badInstruction => "E_BAD_INSTRUCTION"
  | assemble => "E_ASSEMBLE"
  | io => "E_IO"
  | config => "E_CONFIG"

/-- The kind of failure with this code. -/
def ofName? (text : Bytes) : Option Code :=
  all.find? fun c => c.name == text

@[simp] theorem ofName?_name (c : Code) : ofName? c.name = some c := by
  cases c <;> decide

end Code

/-- The offending value of a failure. -/
inductive Value where
  | text (text : Bytes)
  | number (n : Int64)
  | opcode (n : Nat)
  | flag (b : Bool)
deriving DecidableEq, Repr

namespace Value

/-- The value as shown to the user. -/
def render : Value → Bytes
  | text t => t
  | number n => Decimal.ofInt64 n
  | opcode n => Decimal.ofNat n
  | flag true => "true"
  | flag false => "false"

end Value

/-- What could not be written. -/
inductive Written where
  | output
  | listing
  | configuration
deriving DecidableEq, Repr

/-- Why something failed. -/
inductive Fault where
  /-- A word is not well-formed UTF-8. -/
  | invalidText (word : Bytes)
  /-- A program ends after an assignment marker. -/
  | noTarget (marker : Bytes)
  /-- The word after an assignment marker is no identifier. -/
  | badTarget (word : Bytes)
  /-- A statement starts with a word that is no marker. -/
  | unknownStatement (word : Bytes)
  /-- A word follows a complete statement. -/
  | trailing (word : Bytes)
  /-- A statement ends where an expression is due. -/
  | noExpression (after : Bytes)
  /-- A numeral does not fit in 64 bits. -/
  | numeralTooLarge (word : Bytes)
  /-- An expression holds a word of no known kind. -/
  | unknownToken (word : Bytes)
  /-- A tree lacks an expression. -/
  | missingExpression
  /-- A tree lacks a statement. -/
  | missingStatement
  /-- There is no tree. -/
  | missingProgram
  /-- A tree spells a binary operator that does not exist. -/
  | unknownBinary (symbol : Bytes)
  /-- A tree spells a unary operator that does not exist. -/
  | unknownUnary (symbol : Bytes)
  /-- There is no node to compile. -/
  | noNode
  /-- There is no statement to compile. -/
  | noStatementCode
  /-- There is no expression to compile. -/
  | noExpressionCode
  /-- A name has no value. -/
  | unbound (name : Bytes)
  /-- A number is divided by zero. -/
  | divisionByZero (dividend : Int64)
  /-- The root of a negative number is asked for. -/
  | negativeRoot (operand : Int64)
  /-- The run was canceled. -/
  | canceled
  /-- An instruction finds too few operands. -/
  | stackUnderflow (instruction : Bytes)
  /-- An instruction has no meaning. -/
  | unknownInstruction (opcode : Nat)
  /-- A name is read that no earlier statement assigns. -/
  | readBeforeAssigned (name : Bytes)
  /-- A divisor built from constants is zero. -/
  | constantZeroDivisor
  /-- A listing line starts with a word that is no mnemonic. -/
  | unknownMnemonic (word : Bytes)
  /-- A listing line has the wrong number of operands. -/
  | operandCount (mnemonic : Bytes) (wanted : Nat) (line : Bytes)
  /-- A listing line has an operand that is no number. -/
  | badInteger (word : Bytes)
  /-- A listing line is too long to be read. -/
  | lineTooLong
  /-- A run is asked for in a mode that does not exist. -/
  | unknownMode (mode : Bytes)
  /-- A line typed by the user is no command. -/
  | unknownCommand (line : Bytes)
  /-- Output is refused. -/
  | cannotWrite (what : Written) (reason : Bytes)
  /-- Standard input cannot be read. -/
  | cannotReadInput (reason : Bytes)
  /-- A file cannot be read. -/
  | cannotReadFile (path : Bytes) (reason : Option Bytes)
  /-- The trace file cannot be created. -/
  | cannotCreateTrace (path : Bytes)
  /-- The output file cannot be created. -/
  | cannotCreateOutput (path : Bytes)
  /-- The settings are refused. -/
  | badSettings (reason : Bytes)
deriving DecidableEq, Repr

namespace Fault

/-- The kind of the failure. -/
def code : Fault → Code
  | invalidText _ => .lex
  | noTarget _ | noExpression _ => .truncated
  | badTarget _ => .badTarget
  | unknownStatement _ | unknownCommand _ => .unknownStmt
  | trailing _ => .trailing
  | numeralTooLarge _ | unknownToken _ => .unknownToken
  | missingExpression | missingStatement | missingProgram | unknownBinary _ | unknownUnary _
  | noNode | noStatementCode | noExpressionCode => .ast
  | unbound _ | readBeforeAssigned _ => .unbound
  | divisionByZero _ | constantZeroDivisor => .divZero
  | negativeRoot _ => .negSqrt
  | canceled => .canceled
  | stackUnderflow _ => .stackUnderflow
  | unknownInstruction _ => .badInstruction
  | unknownMnemonic _ | operandCount _ _ _ | badInteger _ => .assemble
  | lineTooLong | cannotWrite _ _ | cannotReadInput _ | cannotReadFile _ _ | cannotCreateTrace _
  | cannotCreateOutput _ => .io
  | unknownMode _ | badSettings _ => .config

/-- The message, without the offending value. -/
def message : Fault → Bytes
  | invalidText _ => "invalid UTF-8 in token"
  | noTarget _ => "assignment has no target"
  | badTarget _ => "assignment target must be an identifier"
  | unknownStatement _ => "unknown statement"
  | trailing _ => "unexpected token after complete statement"
  | noExpression _ => "expression expected after token"
  | numeralTooLarge _ => "integer out of range"
  | unknownToken _ => "unknown token"
  | missingExpression => "missing expression"
  | missingStatement => "missing statement"
  | missingProgram => "missing program"
  | unknownBinary _ => "unknown binary operator"
  | unknownUnary _ => "unknown unary operator"
  | noNode => "cannot compile node"
  | noStatementCode => "cannot compile statement"
  | noExpressionCode => "cannot compile expression"
  | unbound _ => "variable has no value"
  | divisionByZero _ => "division by zero"
  | negativeRoot _ => "square root of a negative number"
  | canceled => "execution canceled"
  | stackUnderflow _ => "stack underflow"
  | unknownInstruction _ => "unknown instruction"
  | readBeforeAssigned _ => "variable is read before it is assigned"
  | constantZeroDivisor => "division by constant zero"
  | unknownMnemonic _ => "unknown mnemonic"
  | operandCount mnemonic wanted _ =>
    mnemonic ++ " takes " ++ Decimal.ofNat wanted ++ " operand(s)"
  | badInteger _ => "bad integer operand"
  | lineTooLong => "cannot read listing"
  | unknownMode _ => "unknown execution mode"
  | unknownCommand _ => "unknown command"
  | cannotWrite .output _ => "cannot write output"
  | cannotWrite .listing _ => "cannot write listing"
  | cannotWrite .configuration _ => "cannot write configuration"
  | cannotReadInput _ => "cannot read stdin"
  | cannotReadFile path _ => "cannot read file: " ++ path
  | cannotCreateTrace _ => "cannot create trace file"
  | cannotCreateOutput _ => "cannot create output file"
  | badSettings reason => reason

/-- The offending value. -/
def value? : Fault → Option Value
  | invalidText word => some (.text (Quoted.encode word))
  | noTarget t | badTarget t | unknownStatement t | trailing t | noExpression t
  | numeralTooLarge t | unknownToken t | unknownBinary t | unknownUnary t | unbound t
  | stackUnderflow t | readBeforeAssigned t | unknownMnemonic t | operandCount _ _ t
  | badInteger t | unknownMode t | unknownCommand t | cannotWrite _ t | cannotReadInput t
  | cannotCreateTrace t | cannotCreateOutput t => some (.text t)
  | noNode | noStatementCode | noExpressionCode => some (.text "<nil>")
  | divisionByZero a => some (.text (Decimal.ofInt64 a ++ "/0"))
  | negativeRoot a => some (.number a)
  | canceled => some (.text "context canceled")
  | unknownInstruction n => some (.opcode n)
  | lineTooLong => some (.text "bufio.Scanner: token too long")
  | cannotReadFile _ reason => reason.map .text
  | missingExpression | missingStatement | missingProgram | constantZeroDivisor | badSettings _ =>
    none

/-- Advice for the user; empty for most failures. -/
def hint : Fault → Bytes
  | unknownStatement _ | trailing _ => "statements start with ':=' or '@'"
  | unknownCommand _ => "type :help for a list of commands"
  | _ => []

end Fault

/-- A fault and the place where it happened, if that is known. -/
structure Failure where
  fault : Fault
  span : Option Span
deriving DecidableEq, Repr

namespace Failure

/-- A fault at an unknown place. -/
def ofFault (f : Fault) : Failure := ⟨f, none⟩

/-- A fault at a place; the zero span is no place. -/
def atSpan (f : Fault) (span : Span) : Failure := ⟨f, span.toOption⟩

/-- Adds a place unless one is known. -/
def locate (span : Span) (f : Failure) : Failure :=
  match f.span with
  | some _ => f
  | none => { f with span := span.toOption }

@[simp] theorem locate_fault (span : Span) (f : Failure) : (f.locate span).fault = f.fault := by
  unfold locate
  split <;> rfl

theorem locate_of_span {f : Failure} {s : Span} (h : f.span = some s) (span : Span) :
    f.locate span = f := by
  simp [locate, h]

@[simp] theorem locate_ofFault (f : Fault) (span : Span) :
    (ofFault f).locate span = atSpan f span := rfl

/-- The kind of the failure. -/
def code (f : Failure) : Code := f.fault.code

/-- The message with the offending value. -/
def text (f : Failure) : Bytes :=
  match f.fault.value? with
  | some v => f.fault.message ++ ": " ++ v.render
  | none => f.fault.message

end Failure

end Polish
