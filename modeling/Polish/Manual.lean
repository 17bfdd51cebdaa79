import Polish.Machine.Instr
import Polish.Text.Blank
import Polish.Text.LowerCase
import Polish.Text.Quoted

/-!
# The language reference

The reference has a summary and six topics. A topic is found by its name or by the start of its
name, as long as only one topic starts so.

* `Manual.summary`, `Manual.Topic`
* `Manual.find`: the topic a user asks for.
* `Manual.operatorIndex`, `Manual.machineIndex`: lists of operators and instructions.
-/

namespace Polish.Manual

/-- The quick reference. -/
def summary : Bytes :=
  "Perp v0.1 quick reference\n" ++
  "\n" ++
  "Programs are whitespace-separated tokens in prefix notation.\n" ++
  "\n" ++
  "  := <name> <expr>    assign\n" ++
  "  @ <expr>            print\n" ++
  "  + - * //            add, subtract, multiply, divide (truncating)\n" ++
  "  _ #                 negate, integer square root\n" ++
  "  ; comment           runs to the end of the line\n" ++
  "\n" ++
  "Every program runs twice: on the tree-walking interpreter (=== lines) and\n" ++
  "as compiled code on the stack machine (*** lines).\n" ++
  "\n" ++
  "Topics: syntax, operators, machine, diagnostics, repl, examples\n" ++
  "Run 'perp help <topic>' for details; 'perp help machine --index' lists the\n" ++
  "instruction set.\n"

/-- A chapter of the reference. -/
inductive Topic where
  | grammar
  | operators
  | machine
  | diagnostics
  | repl
  | examples
deriving DecidableEq, Repr

namespace Topic

/-- Every topic, in the order of the quick reference. -/
def all : List Topic := [grammar, operators, machine, diagnostics, repl, examples]

/-- The name of a topic. -/
def name : Topic → Bytes
  | grammar => "syntax"
  | operators => "operators"
  | machine => "machine"
  | diagnostics => "diagnostics"
  | repl => "repl"
  | examples => "examples"

/-- The text on the grammar. -/
def grammarText : Bytes :=
  "Syntax\n" ++
  "\n" ++
  "A program is a sequence of statements. A statement starts at ':=' or '@'\n" ++
  "and runs until the next one, so line breaks carry no meaning.\n" ++
  "\n" ++
  "  := x + 3 4      x becomes 7\n" ++
  "  @ - x 2         prints 5\n" ++
  "\n" ++
  "Tokens are separated by blanks. Identifiers start with a letter; numerals\n" ++
  "are decimal digits and fit a signed 64-bit integer. There are no\n" ++
  "parentheses: every operator takes a fixed number of operands, so the\n" ++
  "nesting is fixed by the token order.\n"

/-- The text on operators. -/
def operatorsText : Bytes :=
  "Operators\n" ++
  "\n" ++
  "  + a b     a plus b\n" ++
  "  - a b     a minus b (the first operand is the left one)\n" ++
  "  * a b     a times b\n" ++
  "  // a b    a divided by b, truncated toward zero; b = 0 is an error\n" ++
  "  _ a       minus a\n" ++
  "  # a       largest integer whose square is at most a; a < 0 is an error\n" ++
  "\n" ++
  "Arithmetic wraps around on 64-bit overflow.\n"

/-- The text on machine. -/
def machineText : Bytes :=
  "Stack machine\n" ++
  "\n" ++
  "The compiler turns every expression into postfix order: operands first,\n" ++
  "then the operator. The machine keeps one operand stack and one symbol\n" ++
  "table per run. Binary instructions pop b, then a, and push a op b.\n" ++
  "\n" ++
  "A well-formed program leaves the stack empty. Run 'perp compile' to see\n" ++
  "the code of a program and 'perp exec' to run a saved listing.\n"

/-- The text on diagnostics. -/
def diagnosticsText : Bytes :=
  "Diagnostics\n" ++
  "\n" ++
  "Errors print as JSON, or as text with --pretty. Parse errors exit with\n" ++
  "status 2, runtime errors with 4 and a disagreement found by 'perp verify'\n" ++
  "with 5.\n" ++
  "\n" ++
  "  E_UNKNOWN_STMT   statement does not start with ':=' or '@'\n" ++
  "  E_UNKNOWN_TOKEN  token is not an operator, identifier or numeral\n" ++
  "  E_TRUNCATED      input ends inside a statement\n" ++
  "  E_BAD_TARGET     assignment target is not an identifier\n" ++
  "  E_TRAILING       extra tokens after a complete statement\n" ++
  "  E_UNBOUND        variable read before assignment\n" ++
  "  E_DIV_ZERO       division by zero\n" ++
  "  E_NEG_SQRT       square root of a negative number\n"

/-- The text on repl. -/
def replText : Bytes :=
  "REPL\n" ++
  "\n" ++
  "'perp repl' reads one line at a time and interprets it against a symbol\n" ++
  "table that lives for the whole session.\n" ++
  "\n" ++
  "  :table   show the symbol table\n" ++
  "  :code    show the compiled code of the last line\n" ++
  "  :reset   clear the symbol table\n" ++
  "  :help    list the commands\n" ++
  "  :quit    leave (also Ctrl-D)\n"

/-- The text on examples. -/
def examplesText : Bytes :=
  "Examples\n" ++
  "\n" ++
  "  := y 5 @ # y                  prints 2\n" ++
  "  := a 7 := b _ 2 @ // a b      prints -3\n" ++
  "  := s 0 := s + s 1 @ * s s     prints 1\n"

/-- The text of a topic. -/
def text : Topic → Bytes
  | grammar => grammarText
  | operators => operatorsText
  | machine => machineText
  | diagnostics => diagnosticsText
  | repl => replText
  | examples => examplesText

end Topic

/-- The names of all topics, with commas between them. -/
def topicNames (topics : List Topic) : Bytes := Bytes.join ", " (topics.map Topic.name)

/-- The topic a user asks for, or what is wrong with the question. -/
def find (query : Bytes) : Except Bytes Topic :=
  let query := query.trim.toLower
  match Topic.all.find? (·.name == query) with
  | some t => .ok t
  | none =>
    match if query.isEmpty then [] else Topic.all.filter fun t => Bytes.hasPrefix query t.name with
    | [] => .error ("unknown help topic " ++ Quoted.encode query)
    | [t] => .ok t
    | ts => .error ("ambiguous help topic " ++ Quoted.encode query ++ ": " ++ topicNames ts)

/-- A line of the operator index: a spelling and its mnemonic. -/
def operatorLine (symbol : Bytes) (o : Operation) : Bytes :=
  "  " ++ symbol.padRight 4 ++ " " ++ o.mnemonic ++ "\n"

/-- Every operator with the instruction it compiles to. -/
def operatorIndex : Bytes :=
  BinaryOp.all.flatMap (fun op => operatorLine op.symbol (.binary op))
    ++ UnaryOp.all.flatMap (fun op => operatorLine op.symbol (.unary op))

/-- A line of the instruction index. -/
def machineLine (o : Operation) : Bytes := "  " ++ o.synopsis ++ "\n"

/-- The instruction set. -/
def machineIndex : Bytes :=
  Operation.all.flatMap machineLine ++ "\nTotal: " ++ Decimal.ofNat Operation.all.length
    ++ " instructions\n"

end Polish.Manual
