import Polish.ExitStatus
import Polish.Proofs.StaticCheck

/-!
# Kinds of failure

Reading a program and running it fail for different kinds of reasons, and the kind decides the exit
status. A program that cannot be read never fails like one that runs, and the other way round; in
particular no expression fails by being canceled.

* `FailsWithin`: a computation fails with these kinds only.
* `Code.isEvaluation`, `Expr.failsWithin_eval`: the kinds of failure of an expression.
* `Code.isReading`, `Program.failsWithin_ofSource`: the kinds of failure of the reader.
-/

namespace Polish

/-- If the computation fails, its failure is of one of these kinds. -/
def FailsWithin {α : Type} (kinds : Code → Bool) (x : Except Failure α) : Prop :=
  ∀ f, x = .error f → kinds f.code = true

namespace FailsWithin

variable {α β : Type} {kinds : Code → Bool}

theorem ok (a : α) : FailsWithin kinds (.ok a) := by
  intro f h
  cases h

theorem error {f : Failure} (h : kinds f.code = true) :
    FailsWithin kinds (.error f : Except Failure α) := by
  intro g hg
  cases hg
  exact h

theorem atSpan {f : Fault} {span : Span} (h : kinds f.code = true) :
    FailsWithin kinds (.error (.atSpan f span) : Except Failure α) :=
  error h

theorem bind {x : Except Failure α} {g : α → Except Failure β} (hx : FailsWithin kinds x)
    (hg : ∀ a, FailsWithin kinds (g a)) : FailsWithin kinds (x >>= g) := by
  cases x with
  | error f => exact error (hx f rfl)
  | ok a => exact hg a

theorem mapM {g : α → Except Failure β} (hg : ∀ a, FailsWithin kinds (g a)) (as : List α) :
    FailsWithin kinds (as.mapM g) := by
  induction as with
  | nil => exact ok []
  | cons a as ih =>
    rw [List.mapM_cons]
    exact bind (hg a) fun b => bind ih fun bs => ok (b :: bs)

/-- A place does not change the kind. -/
theorem mapError {result : Except Fault α} {span : Span}
    (h : ∀ f, result = .error f → kinds f.code = true) :
    FailsWithin kinds (result.mapError (.atSpan · span)) := by
  cases result with
  | ok a => exact ok a
  | error f => exact error (h f rfl)

end FailsWithin

/-! ### Running -/

/-- The kinds of failure of an expression. -/
def Code.isEvaluation : Code → Bool
  | .ast | .unbound | .divZero | .negSqrt => true
  | _ => false

/-- An expression fails because of what is missing in the tree, an unbound name, a zero divisor or a
negative number under a root. -/
theorem Expr.failsWithin_eval (store : Store) (e : Expr) :
    FailsWithin Code.isEvaluation (e.eval store) := by
  induction e with
  | missing => exact .error rfl
  | const span v => exact .ok v
  | var span name =>
    refine .mapError fun f hf => ?_
    rw [Store.get] at hf
    split at hf
    · cases hf
    · cases hf
      rfl
  | binary span symbol l r ihl ihr =>
    refine ihl.bind fun a => ihr.bind fun b => .mapError fun f hf => ?_
    rcases applyBinary_eq_error hf with ⟨-, -, rfl⟩ | ⟨-, rfl⟩
    · rfl
    · rfl
  | unary span symbol e ih =>
    refine ih.bind fun a => .mapError fun f hf => ?_
    rcases applyUnary_eq_error hf with rfl | ⟨-, rfl⟩
    · rfl
    · rfl

/-- A program that fails in one of these ways ends with the status of a failed run. -/
theorem ExitStatus.ofCode_of_isEvaluation {c : Code} (h : c.isEvaluation = true) :
    ofCode c = failed := by
  revert h
  cases c <;> decide

/-! ### Reading -/

/-- The kinds of failure of the reader. -/
def Code.isReading : Code → Bool
  | .lex | .unknownStmt | .unknownToken | .truncated | .badTarget | .trailing => true
  | _ => false

theorem failsWithin_leaf (t : Token) : FailsWithin Code.isReading (leaf t) := by
  unfold leaf
  cases t.kind with
  | ident | binary | unary => exact .ok _
  | numeral =>
    dsimp only
    split
    · exact .ok _
    · exact .atSpan rfl
  | assign | print | unknown => exact .atSpan rfl

theorem failsWithin_readExpr (stack : List Pending) (prev : Token) (ts : List Token) :
    FailsWithin Code.isReading (readExpr stack prev ts) := by
  induction ts generalizing stack prev with
  | nil => exact .atSpan rfl
  | cons t ts ih =>
    rw [readExpr]
    cases hleaf : leaf t with
    | error f => exact .error (failsWithin_leaf t f hleaf)
    | ok read =>
      cases read with
      | inr op => exact ih _ _
      | inl e =>
        dsimp only
        split
        · exact .ok _
        · exact ih _ _

theorem failsWithin_expectEnd (ts : List Token) : FailsWithin Code.isReading (expectEnd ts) := by
  cases ts with
  | nil => exact .ok ()
  | cons t ts => exact .atSpan rfl

theorem failsWithin_readRest (prev : Token) (ts : List Token) (build : Span → Expr → Action) :
    FailsWithin Code.isReading (readRest prev ts build) :=
  (failsWithin_readExpr [] prev ts).bind fun read =>
    (failsWithin_expectEnd read.2.2).bind fun _ => .ok _

theorem Clause.failsWithin_read (c : Clause) : FailsWithin Code.isReading c.read := by
  obtain ⟨first, rest⟩ := c
  cases hkind : first.kind with
  | print =>
    rw [read_print hkind]
    exact failsWithin_readRest first rest _
  | assign =>
    cases rest with
    | nil =>
      simp only [read, hkind]
      exact .atSpan rfl
    | cons x ts =>
      by_cases hx : x.kind = .ident
      · rw [read_assign hkind hx]
        exact failsWithin_readRest x ts _
      · simp only [read, hkind, hx, if_false]
        exact .atSpan rfl
  | ident | numeral | binary | unary | unknown =>
    simp only [read, hkind]
    exact .atSpan rfl

theorem failsWithin_toToken (file : Bytes) (w : Word) :
    FailsWithin Code.isReading (w.toToken file) := by
  unfold Word.toToken
  split
  · exact .ok _
  · exact .error rfl

/-- A source that cannot be read fails with one of the kinds of the reader. -/
theorem Program.failsWithin_ofSource (file source : Bytes) :
    FailsWithin Code.isReading (ofSource file source) := by
  refine .bind (.mapM (failsWithin_toToken file) _) fun ts => ?_
  exact .bind (.mapM Clause.failsWithin_read _) fun as => .ok _

/-- A source that cannot be read ends with the status for it. -/
theorem ExitStatus.ofCode_of_isReading {c : Code} (h : c.isReading = true) :
    ofCode c = unreadable := by
  revert h
  cases c <;> decide

end Polish
