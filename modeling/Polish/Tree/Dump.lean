import Polish.Text.Quoted
import Polish.Tree

/-!
# Dumping trees

A dump shows every node of a tree with the names and types of its fields, one field a line, indented
by its depth.

* `Expr.dump`, `Action.dump`, `Program.dump`
-/

namespace Polish

namespace Dump

/-- A text with its type and, unless it is empty, its length in bytes. -/
def text (type value : Bytes) : Bytes :=
  let length : Bytes :=
    if value.isEmpty then [] else "(len=" ++ Decimal.ofNat value.length ++ ") "
  "(" ++ type ++ ") " ++ length ++ Quoted.encode value

/-- A count. -/
def count (n : Int) : Bytes := "(int) " ++ Decimal.ofInt n

/-- A field of a node that is indented by `depth` columns. -/
def field (depth : Nat) (name value : Bytes) : Bytes :=
  Bytes.spaces (depth + 2) ++ name ++ ": " ++ value

/-- Lines between braces; the braces are indented by `depth` columns. -/
def braces (depth : Nat) (lines : List Bytes) : Bytes :=
  "\x7b\n" ++ Bytes.join ",\n" lines ++ "\n" ++ Bytes.spaces depth ++ "\x7d"

/-- A span that is indented by `depth` columns. -/
def span (depth : Nat) (s : Span) : Bytes :=
  "(ast.Span) " ++ braces depth [field depth "File" (text "string" s.file),
    field depth "StartLine" (count s.startLine), field depth "StartCol" (count s.startCol),
    field depth "EndLine" (count s.endLine), field depth "EndCol" (count s.endCol)]

/-- A node of a sort with its span and further fields. -/
def node (depth : Nat) (sort : Bytes) (s : Span) (fields : List (Bytes × Bytes)) : Bytes :=
  let lines := fields.map fun (name, value) => field depth name value
  "(*ast." ++ sort ++ ")(" ++ braces depth (field depth "Span" (span (depth + 2) s) :: lines) ++ ")"

end Dump

/-- The dump of an expression that is indented by `depth` columns. -/
def Expr.dump (depth : Nat) : Expr → Bytes
  | missing => "(ast.Expr) <nil>"
  | const s v => Dump.node depth "Constant" s [("Value", "(int64) " ++ Decimal.ofInt64 v)]
  | var s n => Dump.node depth "Variable" s [("Name", Dump.text "string" n)]
  | binary s op l r =>
    Dump.node depth "BinaryOperation" s [("Op", Dump.text "ast.BinaryOp" op),
      ("Left", l.dump (depth + 2)), ("Right", r.dump (depth + 2))]
  | unary s op e =>
    Dump.node depth "UnaryOperation" s [("Op", Dump.text "ast.UnaryOp" op),
      ("Operand", e.dump (depth + 2))]

namespace Action

/-- The dump of a list of statements, given the dump of each. -/
def dumpList (depth : Nat) (items : List Bytes) : Bytes :=
  let type : Bytes := "([]ast.Action) "
  if items.isEmpty then type ++ "<nil>"
  else type ++ "(len=" ++ Decimal.ofNat items.length ++ ") "
    ++ Dump.braces depth (items.map (Bytes.spaces (depth + 2) ++ ·))

mutual

/-- The dump of a statement that is indented by `depth` columns. -/
def dump (depth : Nat) : Action → Bytes
  | missing => "(ast.Action) <nil>"
  | assign s n e =>
    Dump.node depth "Assignment" s [("Ident", Dump.text "string" n), ("Rhs", e.dump (depth + 2))]
  | print s e => Dump.node depth "Print" s [("Printee", e.dump (depth + 2))]
  | seq s as =>
    Dump.node depth "ActionSequence" s [("Actions", dumpList (depth + 2) (dumpAll (depth + 4) as))]

/-- The dumps of statements. -/
def dumpAll (depth : Nat) : List Action → List Bytes
  | [] => []
  | a :: as => a.dump depth :: dumpAll depth as

end

end Action

/-- The dump of a program, with a line end. -/
def Program.dump (p : Program) : Bytes := p.toAction.dump 0 ++ "\n"

end Polish
