import Polish.Tree.Parser

/-!
# Reading by position

A second reader of programs. It cuts the tokens in one pass, with the group that is still open kept
aside, and reads a statement with a cursor that counts the tokens taken; the operands of an operator
are read by recursion. The cursor asks for tokens by their number and does not look first whether
there is one. A number without a token is out of range, which is not the same as a refusal.

* `Cutting`, `cutAtMarkers`: the cut in one pass.
* `Mishap`: what may happen instead of a result.
* `TokenCursor` with `advance` and `last`: the tokens of a statement, taken one by one.
* `TokenCursor.readExpr`, `TokenCursor.readStatement`: one expression, one statement.
* `Program.ofTokensByPosition`: whole programs.
-/

namespace Polish

/-! ### Cutting in one pass -/

/-- The groups that are complete, and the tokens of the one that is still open. -/
structure Cutting where
  groups : List (List Token)
  pending : List Token
deriving DecidableEq, Repr

namespace Cutting

/-- Nothing is cut yet. -/
def start : Cutting := ⟨[], []⟩

/-- Takes one token in. A marker completes the open group, if that holds anything. -/
def take (c : Cutting) (t : Token) : Cutting :=
  if t.isMarker && !c.pending.isEmpty then ⟨c.groups ++ [c.pending], [t]⟩
  else { c with pending := c.pending ++ [t] }

/-- All groups, once there are no more tokens. -/
def finish (c : Cutting) : List (List Token) :=
  if c.pending.isEmpty then c.groups else c.groups ++ [c.pending]

end Cutting

/-- Cuts the tokens before every marker, in one pass. -/
def cutAtMarkers (ts : List Token) : List (List Token) := (ts.foldl Cutting.take .start).finish

/-! ### The cursor -/

/-- What may happen instead of a result. -/
inductive Mishap where
  /-- A token is asked for that does not exist. -/
  | outOfRange
  /-- The tokens are refused. -/
  | refused (f : Failure)
deriving DecidableEq, Repr

/-- The tokens of a statement, and how many of them are taken. -/
structure TokenCursor where
  tokens : List Token
  taken : Nat
deriving DecidableEq, Repr

/-- A token is refused. -/
def Token.refuse {α : Type} (t : Token) (f : Fault) : Except Mishap α :=
  .error (.refused (.atSpan f t.span))

namespace TokenCursor

/-- The number of tokens ahead. -/
def ahead (c : TokenCursor) : Nat := c.tokens.length - c.taken

/-- Are all tokens taken? -/
def atEnd (c : TokenCursor) : Bool := c.tokens.length ≤ c.taken

/-- A cursor that has fewer tokens ahead. -/
abbrev Beyond (c : TokenCursor) := { d : TokenCursor // d.ahead < c.ahead }

/-- What is beyond a cursor beyond this one is beyond this one. -/
def Beyond.trans {c : TokenCursor} (d : c.Beyond) (e : d.1.Beyond) : c.Beyond :=
  ⟨e.1, Nat.lt_trans e.2 d.2⟩

/-- The token with a number. -/
def token (c : TokenCursor) (n : Nat) : Except Mishap Token :=
  match c.tokens[n]? with
  | some t => .ok t
  | none => .error .outOfRange

/-- Takes the next token. -/
def advance (c : TokenCursor) : Except Mishap (Token × c.Beyond) :=
  match h : c.tokens[c.taken]? with
  | some t => .ok (t, ⟨{ c with taken := c.taken + 1 }, by
      obtain ⟨hlt, -⟩ := List.getElem?_eq_some_iff.mp h
      simp only [ahead]
      omega⟩)
  | none => .error .outOfRange

/-- The token taken last. -/
def last (c : TokenCursor) : Except Mishap Token :=
  match c.taken with
  | 0 => .error .outOfRange
  | n + 1 => c.token n

/-! ### Expressions -/

/-- Reads an expression. -/
def readExpr (c : TokenCursor) : Except Mishap (Expr × c.Beyond) :=
  if c.atEnd then do
    let prev ← c.last
    prev.refuse (.noExpression prev.text)
  else do
    let (t, d) ← c.advance
    match t.kind with
    | .ident => return (.var t.span t.text, d)
    | .numeral =>
      match Decimal.readInt64? t.text with
      | some v => return (.const t.span v, d)
      | none => t.refuse (.numeralTooLarge t.text)
    | .binary _ =>
      let (l, d₂) ← d.1.readExpr
      let (r, d₃) ← d₂.1.readExpr
      let last ← d₃.1.last
      return (.binary (t.span.through last.span) t.text l r, d.trans (d₂.trans d₃))
    | .unary _ =>
      let (e, d₂) ← d.1.readExpr
      let last ← d₂.1.last
      return (.unary (t.span.through last.span) t.text e, d.trans d₂)
    | _ => t.refuse (.unknownToken t.text)
termination_by c.ahead
decreasing_by
  · exact d.2
  · exact (d.trans d₂).2
  · exact d.2

/-! ### Statements and programs -/

/-- A statement must be complete where its tokens end. -/
def expectEnd (c : TokenCursor) : Except Mishap Unit :=
  if c.atEnd then .ok ()
  else do
    let extra ← c.token c.taken
    extra.refuse (.trailing extra.text)

/-- Reads the expression that ends a statement. -/
def readRest (c : TokenCursor) (build : Span → Expr → Action) : Except Mishap Action := do
  let (e, ⟨d, _⟩) ← c.readExpr
  d.expectEnd
  let last ← d.last
  return build last.span e

/-- Reads the tokens of one statement. -/
def readStatement (ts : List Token) : Except Mishap Action := do
  let (first, ⟨c, _⟩) ← advance ⟨ts, 0⟩
  match first.kind with
  | .assign =>
    if c.atEnd then first.refuse (.noTarget first.text)
    else
      let (target, ⟨c, _⟩) ← c.advance
      if target.kind = .ident then
        c.readRest fun last e => .assign (first.span.through last) target.text e
      else target.refuse (.badTarget target.text)
  | .print => c.readRest fun last e => .print (first.span.through last) e
  | _ => first.refuse (.unknownStatement first.text)

end TokenCursor

/-- Reads a program. -/
def Program.ofTokensByPosition (ts : List Token) : Except Mishap Program := do
  return ⟨tokensSpan ts, ← (cutAtMarkers ts).mapM TokenCursor.readStatement⟩

end Polish
