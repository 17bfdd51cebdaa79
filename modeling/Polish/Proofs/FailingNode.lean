import Mathlib.Data.List.Perm.Basic
import Polish.Proofs.Effect
import Polish.Proofs.Malformed

/-!
# The node at which a run fails

A run fails at one node of its tree: the first one, in the order of evaluation, that has no value.
Its operands come before it and have values, so the failure is its own. The node places the failure,
and nothing above it places it again. In a program that was read from a source no two nodes have the
same place, so the place of the failure tells which node it was.

1. `Expr.evaluated`: the nodes of an expression in the order of evaluation.
2. `Expr.FailsItself`: a node without a value whose operands have values, and what is reported of it.
3. `FailsAt`, `Expr.failsAt_of_eval`: the first node without a value gives the failure. The induction
   is on the expression; `FailsAt.append` and `FailsAt.prepend` put the operands in order.
4. `Program.exists_failing_statement`: the statement that fails, and the table it fails on.
5. `Program.pairwise_span_ne`: the places of nodes are different.
6. `Program.failure_names_the_failing_node`: the run of a source.
-/

namespace Polish

/-! ### The order of evaluation -/

namespace Expr

/-- The nodes of an expression in the order of evaluation: the left operand, the right operand, the
operation. -/
def evaluated : Expr → List Expr
  | missing => []
  | const span v => [const span v]
  | var span name => [var span name]
  | binary span op l r => l.evaluated ++ r.evaluated ++ [binary span op l r]
  | unary span op e => e.evaluated ++ [unary span op e]

/-- The operands of an operation. -/
def operands : Expr → List Expr
  | binary _ _ l r => [l, r]
  | unary _ _ e => [e]
  | missing | const _ _ | var _ _ => []

/-- The order of evaluation is an order of the nodes. -/
theorem perm_evaluated (e : Expr) : e.evaluated.Perm e.nodes := by
  induction e with
  | missing => exact .nil
  | const span v => exact .refl _
  | var span name => exact .refl _
  | binary span symbol l r ihl ihr =>
    exact (List.perm_append_singleton _ _).trans (.cons _ (ihl.append ihr))
  | unary span symbol e ih => exact (List.perm_append_singleton _ _).trans (.cons _ ih)

variable {e : Expr} {store : Store}

/-- If an expression has a value, so has every node of it. -/
theorem exists_eval_of_mem_evaluated {v : Int64} (h : e.eval store = .ok v) :
    ∀ x ∈ e.evaluated, ∃ w, x.eval store = .ok w := by
  induction e generalizing v with
  | missing => cases h
  | const span c => exact List.forall_mem_singleton.mpr ⟨v, h⟩
  | var span name => exact List.forall_mem_singleton.mpr ⟨v, h⟩
  | binary span symbol l r ihl ihr =>
    obtain ⟨a, ha, hrest⟩ := Result.bind_eq_ok.mp h
    obtain ⟨b, hb, -⟩ := Result.bind_eq_ok.mp hrest
    exact List.forall_mem_append.mpr ⟨List.forall_mem_append.mpr ⟨ihl ha, ihr hb⟩,
      List.forall_mem_singleton.mpr ⟨v, h⟩⟩
  | unary span symbol e ih =>
    obtain ⟨a, ha, -⟩ := Result.bind_eq_ok.mp h
    exact List.forall_mem_append.mpr ⟨ih ha, List.forall_mem_singleton.mpr ⟨v, h⟩⟩

end Expr

/-- The nodes of a statement in the order of evaluation. -/
def Action.evaluated : Action → List Expr
  | assign _ _ e | print _ e => e.evaluated
  | missing | seq _ _ => []

/-- The nodes of a program in the order of evaluation. -/
def Program.evaluated (p : Program) : List Expr := p.actions.flatMap Action.evaluated

/-! ### Failures of a single node -/

theorem BinaryOp.apply_eq_error {op : BinaryOp} {a b : Int64} {f : Fault} :
    op.apply a b = .error f ↔ op = div ∧ b = 0 ∧ f = .divisionByZero a := by
  cases op with
  | add | sub | mul => simp [apply]
  | div => by_cases hb : b = 0 <;> simp [apply, hb, eq_comm]

theorem UnaryOp.apply_eq_error {op : UnaryOp} {a : Int64} {f : Fault} :
    op.apply a = .error f ↔ op = sqrt ∧ a < 0 ∧ f = .negativeRoot a := by
  cases op with
  | neg => simp [apply]
  | sqrt => by_cases ha : a < 0 <;> simp [apply, ha, eq_comm]

/-- The node has no value although its operands have: its name is unbound, its divisor is zero or
the operand of its root is negative. The failure has this code and this value. -/
inductive Expr.FailsItself (store : Store) : Expr → Code → Value → Prop where
  | unbound {span : Span} {name : Bytes} (hname : store.get? name = none) :
      FailsItself store (.var span name) .unbound (.text name)
  | division {span : Span} {l r : Expr} {a : Int64} (hl : l.eval store = .ok a)
      (hr : r.eval store = .ok 0) :
      FailsItself store (.binary span BinaryOp.div.symbol l r) .divZero
        (.text (Decimal.ofInt64 a ++ "/0"))
  | root {span : Span} {e : Expr} {a : Int64} (he : e.eval store = .ok a) (ha : a < 0) :
      FailsItself store (.unary span UnaryOp.sqrt.symbol e) .negSqrt (.number a)

theorem Expr.FailsItself.operands {store : Store} {n : Expr} {c : Code} {value : Value}
    (h : n.FailsItself store c value) : ∀ e ∈ n.operands, ∃ v, e.eval store = .ok v := by
  cases h with
  | unbound _ => exact fun e he => (List.not_mem_nil he).elim
  | division hl hr => exact List.forall_mem_cons.mpr ⟨⟨_, hl⟩, List.forall_mem_singleton.mpr ⟨_, hr⟩⟩
  | root he _ => exact List.forall_mem_singleton.mpr ⟨_, he⟩

/-! ### The first node without a value -/

/-- Of these nodes, in this order, all before this one have values; this one fails itself, and that
is the failure, at the place of the node. -/
def FailsAt (store : Store) (order : List Expr) (n : Expr) (f : Failure) : Prop :=
  ∃ earlier later, order = earlier ++ n :: later ∧ (∀ x ∈ earlier, ∃ v, x.eval store = .ok v) ∧
    (∃ value, f.fault.value? = some value ∧ n.FailsItself store f.code value) ∧
    f.span = n.span.toOption

namespace FailsAt

variable {store : Store} {order : List Expr} {n : Expr} {f : Failure}

/-- What comes after the node has no part in the failure. -/
theorem append (h : FailsAt store order n f) (more : List Expr) :
    FailsAt store (order ++ more) n f := by
  obtain ⟨earlier, later, rfl, hrest⟩ := h
  exact ⟨earlier, later ++ more, List.append_assoc .., hrest⟩

/-- Nodes with values may come before it. -/
theorem prepend (h : FailsAt store order n f) {front : List Expr}
    (hfront : ∀ x ∈ front, ∃ v, x.eval store = .ok v) : FailsAt store (front ++ order) n f := by
  obtain ⟨earlier, later, rfl, hearlier, hrest⟩ := h
  exact ⟨front ++ earlier, later, (List.append_assoc ..).symm,
    List.forall_mem_append.mpr ⟨hfront, hearlier⟩, hrest⟩

/-- The node alone. -/
theorem single {fault : Fault} {value : Value} (hvalue : fault.value? = some value)
    (h : n.FailsItself store fault.code value) :
    FailsAt store [n] n (.atSpan fault n.span) :=
  ⟨[], [], rfl, fun _ hx => (List.not_mem_nil hx).elim, ⟨value, hvalue, h⟩, rfl⟩

end FailsAt

/-- **Expressions.** The evaluation of a sound expression fails at the first node without a value. -/
theorem Expr.failsAt_of_eval {e : Expr} {store : Store} {f : Failure} (hsound : e.IsSound)
    (hf : e.eval store = .error f) : ∃ n, FailsAt store e.evaluated n f := by
  induction e with
  | missing => exact (not_isSound_missing hsound).elim
  | const span v => cases hf
  | var span name =>
    obtain ⟨fault, hfault, rfl⟩ := Result.mapError_eq_error.mp hf
    rw [Store.get] at hfault
    cases hget : store.get? name with
    | some v =>
      rw [hget] at hfault
      cases hfault
    | none =>
      rw [hget] at hfault
      cases hfault
      exact ⟨_, .single rfl (.unbound hget)⟩
  | binary span symbol l r ihl ihr =>
    obtain ⟨⟨op, hop⟩, hl, hr⟩ := isSound_binary.mp hsound
    obtain rfl := BinaryOp.symbol_of_ofSymbol? hop
    rw [eval_binary hop] at hf
    rcases Result.bind_eq_error.mp hf with hf | ⟨a, ha, hf⟩
    · -- the left operand fails: the rest of the operation comes later
      obtain ⟨n, hn⟩ := ihl hl hf
      exact ⟨n, (hn.append r.evaluated).append _⟩
    have hleft := exists_eval_of_mem_evaluated ha
    rcases Result.bind_eq_error.mp hf with hf | ⟨b, hb, hf⟩
    · obtain ⟨n, hn⟩ := ihr hr hf
      exact ⟨n, (hn.prepend hleft).append _⟩
    have hright := exists_eval_of_mem_evaluated hb
    -- both operands have values, so the operation fails itself
    obtain ⟨fault, hfault, rfl⟩ := Result.mapError_eq_error.mp hf
    obtain ⟨rfl, rfl, rfl⟩ := BinaryOp.apply_eq_error.mp hfault
    exact ⟨_, (FailsAt.single rfl (.division ha hb)).prepend
      (List.forall_mem_append.mpr ⟨hleft, hright⟩)⟩
  | unary span symbol e ih =>
    obtain ⟨⟨op, hop⟩, he⟩ := isSound_unary.mp hsound
    obtain rfl := UnaryOp.symbol_of_ofSymbol? hop
    rw [eval_unary hop] at hf
    rcases Result.bind_eq_error.mp hf with hf | ⟨a, ha, hf⟩
    · obtain ⟨n, hn⟩ := ih he hf
      exact ⟨n, hn.append _⟩
    obtain ⟨fault, hfault, rfl⟩ := Result.mapError_eq_error.mp hf
    obtain ⟨rfl, hneg, rfl⟩ := UnaryOp.apply_eq_error.mp hfault
    exact ⟨_, (FailsAt.single rfl (.root ha hneg)).prepend (exists_eval_of_mem_evaluated ha)⟩

/-! ### The statement that fails -/

theorem Expr.IsWritten.isSound {e : Expr} (h : e.IsWritten) : e.IsSound :=
  (exists_compile_iff e).mp (exists_compile h)

theorem Span.eq_of_toOption {s t : Span} (h : s.toOption = some t) : s = t := by
  rw [toOption] at h
  split at h
  · cases h
  · exact Option.some.inj h

/-- The node has a place, so what is above it does not place the failure again. -/
theorem Expr.failsAt_of_locate {e : Expr} (hwritten : e.IsWritten) (hplaced : e.IsPlaced)
    {store : Store} {span : Span} {f : Failure}
    (hf : (e.eval store).mapError (·.locate span) = .error f) :
    ∃ n, FailsAt store e.evaluated n f ∧ f.span = some n.span := by
  obtain ⟨g, hg, rfl⟩ := Result.mapError_eq_error.mp hf
  obtain ⟨place, hplace⟩ := span_of_eval hplaced hg
  rw [Failure.locate_of_span hplace]
  obtain ⟨n, hn⟩ := failsAt_of_eval hwritten.isSound hg
  obtain ⟨-, -, -, -, -, hspan⟩ := id hn
  refine ⟨n, hn, ?_⟩
  rw [hplace, Span.eq_of_toOption (hspan.symm.trans hplace)]

theorem Action.failsAt_of_value {a : Action} (hwritten : a.IsWritten) (hplaced : a.IsPlaced)
    {store : Store} {f : Failure} (hf : a.value store = .error f) :
    ∃ n, FailsAt store a.evaluated n f ∧ f.span = some n.span := by
  cases a with
  | missing | seq => exact hwritten.elim
  | assign span target e => exact Expr.failsAt_of_locate hwritten.2 hplaced hf
  | print span e => exact Expr.failsAt_of_locate hwritten hplaced hf

namespace Program

variable {p : Program}

/-- A run that fails does so at a statement, on the table that the statements before it leave when
they are run alone. -/
theorem exists_failing_statement (hwritten : p.IsWritten) {info : RunInfo}
    (hwatch : info.watch.cancelAt = none) {store : Store} {f : Failure}
    (hf : (execute info p.toAction store).failure = some f) :
    ∃ before a after, p.actions = before ++ a :: after ∧
      (execute info (.seq p.span before) store).failure = none ∧
      a.value (execute info (.seq p.span before) store).progress.store = .error f := by
  have hcourse := (execute_eq_course hwatch (ne_missing_of_mem_leaves hwritten) store).2.2
  rw [leaves_toAction hwritten, hf] at hcourse
  have hnext := Action.course_next store p.actions
  have hle := Action.length_values_le store p.actions
  have htake := Action.course_take (Nat.le_refl (Action.course store p.actions).values.length)
  rw [← hcourse] at hnext
  generalize (Action.course store p.actions).values = values at hnext hle htake
  obtain ⟨a, ha, hvalue⟩ := hnext
  obtain ⟨hlt, hget⟩ := List.getElem?_eq_some_iff.mp ha
  refine ⟨p.actions.take values.length, a, p.actions.drop (values.length + 1), ?_, ?_⟩
  · rw [← hget, ← List.drop_eq_getElem_cons hlt, List.take_append_drop]
  · -- the statements before it, run alone, complete with the same values
    have hbefore : IsWritten ⟨p.span, p.actions.take values.length⟩ :=
      fun b hb => hwritten b (List.mem_of_mem_take hb)
    obtain ⟨hstore, -, hnone⟩ := execute_eq_course hwatch (ne_missing_of_mem_leaves hbefore) store
    have hzip : p.actions.zip values = (p.actions.take values.length).zip values := by
      rw [List.zip_eq_zip_take_min, Nat.min_eq_right hle, List.take_length]
    rw [leaves_toAction hbefore, htake, List.take_length] at hstore hnone
    refine ⟨hnone, ?_⟩
    rw [toAction] at hstore
    rw [hstore, ← hzip]
    exact hvalue

end Program

/-! ### Different nodes have different places -/

/-- The nodes of an expression start one after the other. -/
theorem Reads.pairwise_nodes {ts : List Token} {e : Expr} (h : Reads ts e)
    (hts : ts.Pairwise fun t u => t.span.StartsBefore u.span) :
    e.nodes.Pairwise fun x y => x.span.StartsBefore y.span := by
  induction h with
  | var _ | const _ _ => exact List.pairwise_singleton _ _
  | @binary t _ ls rs l r _ hl hr ihl ihr =>
    obtain ⟨hfirst, hrest⟩ := List.pairwise_cons.mp hts
    obtain ⟨hls, hrs, hcross⟩ := List.pairwise_append.mp hrest
    refine List.pairwise_cons.mpr ⟨?_, List.pairwise_append.mpr ⟨ihl hls, ihr hrs, ?_⟩⟩
    · -- the operation starts at its operator, which comes before the tokens of both operands
      intro x hx
      obtain ⟨u, hu, hstart⟩ : ∃ u ∈ ls ++ rs, x.span.start = u.span.start := by
        rcases List.mem_append.mp hx with hx | hx
        · obtain ⟨u, hu, hstart⟩ := hl.exists_start x hx
          exact ⟨u, List.mem_append_left rs hu, hstart⟩
        · obtain ⟨u, hu, hstart⟩ := hr.exists_start x hx
          exact ⟨u, List.mem_append_right ls hu, hstart⟩
      exact (hfirst u hu).of_start_eq (start_tokensSpan t (ls ++ rs)) hstart
    · intro x hx y hy
      obtain ⟨t, ht, hxt⟩ := hl.exists_start x hx
      obtain ⟨u, hu, hyu⟩ := hr.exists_start y hy
      exact (hcross t ht u hu).of_start_eq hxt hyu
  | @unary t _ ts e _ he ih =>
    obtain ⟨hfirst, hrest⟩ := List.pairwise_cons.mp hts
    refine List.pairwise_cons.mpr ⟨?_, ih hrest⟩
    intro x hx
    obtain ⟨u, hu, hstart⟩ := he.exists_start x hx
    exact (hfirst u hu).of_start_eq (start_tokensSpan t ts) hstart

theorem ReadsStatement.pairwise_nodes {ts : List Token} {a : Action} (h : ReadsStatement ts a)
    (hts : ts.Pairwise fun t u => t.span.StartsBefore u.span) :
    a.nodes.Pairwise fun x y => x.span.StartsBefore y.span := by
  cases h with
  | assign _ _ he => exact he.pairwise_nodes hts.of_cons.of_cons
  | print _ he => exact he.pairwise_nodes hts.of_cons

/-- The nodes of a program start one after the other. -/
theorem ReadsProgram.pairwise_flatMap_nodes {ts : List Token} {as : List Action}
    (h : ReadsProgram ts as) (hts : ts.Pairwise fun t u => t.span.StartsBefore u.span) :
    (as.flatMap Action.nodes).Pairwise fun x y => x.span.StartsBefore y.span := by
  refine List.pairwise_flatMap.mpr ⟨?_, h.pairwise_nodes hts⟩
  induction h with
  | nil => exact fun a ha => (List.not_mem_nil ha).elim
  | cons hs _ ih =>
    obtain ⟨hstatement, htail, -⟩ := List.pairwise_append.mp hts
    exact List.forall_mem_cons.mpr ⟨hs.pairwise_nodes hstatement, ih htail⟩

theorem Action.perm_evaluated (a : Action) : a.evaluated.Perm a.nodes := by
  cases a with
  | missing | seq => exact .nil
  | assign span target e => exact e.perm_evaluated
  | print span e => exact e.perm_evaluated

/-- Of nodes with different places, one has the place of a given one. -/
theorem filter_span_eq_singleton {order : List Expr}
    (hne : order.Pairwise fun x y => x.span ≠ y.span) {n : Expr} (hn : n ∈ order) {f : Failure}
    (hf : f.span = some n.span) : (order.filter fun x => f.span = some x.span) = [n] := by
  obtain ⟨front, back, rfl⟩ := List.append_of_mem hn
  obtain ⟨-, hback, hfront⟩ := List.pairwise_append.mp hne
  have hbefore : ∀ x ∈ front, x.span ≠ n.span := fun x hx => hfront x hx n List.mem_cons_self
  have hafter : ∀ x ∈ back, n.span ≠ x.span := (List.pairwise_cons.mp hback).1
  rw [List.filter_append, List.filter_cons_of_pos (by simpa using hf),
    List.filter_eq_nil_iff.mpr (by simpa [hf, eq_comm] using hbefore),
    List.filter_eq_nil_iff.mpr (by simpa [hf] using hafter), List.nil_append]

namespace Program

variable {p : Program} {file source : Bytes}

/-- No two nodes of a program that was read from a source have the same place. -/
theorem pairwise_span_ne (hsource : ofSource file source = .ok p) :
    p.evaluated.Pairwise fun x y => x.span ≠ y.span := by
  obtain ⟨ts, hts, hp⟩ := Result.bind_eq_ok.mp hsource
  have hstarts := (ofTokens_eq_ok.mp hp).2.pairwise_flatMap_nodes (pairwise_startsBefore hts)
  have hnodes : (p.actions.flatMap Action.nodes).Pairwise fun x y => x.span ≠ y.span :=
    hstarts.imp fun h heq => h.start_ne (congrArg Span.start heq)
  have hperm : p.evaluated.Perm (p.actions.flatMap Action.nodes) :=
    List.Perm.flatMap_left _ fun a _ => a.perm_evaluated
  exact (hperm.pairwise_iff Ne.symm).mpr hnodes

/-- **A failure names the node that failed.** If the run of a program that was read from a source
fails, on any table and without being canceled, exactly one node of the program has the place of the
failure. The statements before the one with this node complete, and on the table they leave

* every operand of the node has a value, and so has every node that is evaluated before it in its
  statement;
* the node is a name that is unbound, a division by zero or a root of a negative number, and the
  code and value of the failure say which. -/
theorem failure_names_the_failing_node (hsource : ofSource file source = .ok p) {watch : Watch}
    (hwatch : watch.cancelAt = none) (runId : Bytes) (store : Store) {f : Failure}
    (hf : (execute ⟨watch, runId⟩ p.toAction store).failure = some f) :
    ∃ before a after earlier n later,
      p.actions = before ++ a :: after ∧ a.evaluated = earlier ++ n :: later ∧
      (p.evaluated.filter fun x => f.span = some x.span) = [n] ∧
      let x := execute ⟨watch, runId⟩ (.seq p.span before) store
      x.failure = none ∧
      (∀ e ∈ n.operands, ∃ v, e.eval x.progress.store = .ok v) ∧
      (∀ e ∈ earlier, ∃ v, e.eval x.progress.store = .ok v) ∧
      ∃ value, f.fault.value? = some value ∧ n.FailsItself x.progress.store f.code value := by
  obtain ⟨hwritten, hplaced⟩ := isWritten_of_source hsource
  obtain ⟨before, a, after, hactions, hnone, hvalue⟩ := exists_failing_statement hwritten hwatch hf
  have ha : a ∈ p.actions := by
    rw [hactions]
    exact List.mem_append_right before List.mem_cons_self
  obtain ⟨n, hfails, hspan⟩ := Action.failsAt_of_value (hwritten a ha) (hplaced a ha) hvalue
  obtain ⟨earlier, later, horder, hearlier, ⟨value, hfault, hitself⟩, -⟩ := hfails
  have hn : n ∈ p.evaluated := by
    refine List.mem_flatMap.mpr ⟨a, ha, ?_⟩
    rw [horder]
    exact List.mem_append_right earlier List.mem_cons_self
  exact ⟨before, a, after, earlier, n, later, hactions, horder,
    filter_span_eq_singleton (pairwise_span_ne hsource) hn hspan, hnone, hitself.operands, hearlier,
    value, hfault, hitself⟩

/-- A divisor from the table the run starts on is zero: the failure is at the division, below a sum
and above a product. -/
theorem failure_names_the_failing_node_division :
    let place (first last : Int) : Span := ⟨"p", 1, first, 1, last⟩
    let product : Expr :=
      .binary (place 17 22) "*" (.const (place 19 20) 7) (.var (place 21 22) "a")
    let quotient : Expr := .binary (place 14 24) "//" product (.var (place 23 24) "b")
    let sum : Expr := .binary (place 10 24) "+" (.var (place 12 13) "a") quotient
    let p : Program := ⟨place 1 24, [.assign (place 1 7) "a" (.const (place 6 7) 1),
      .print (place 8 24) sum]⟩
    let store : Store := NameMap.empty.put "b" 0
    let f : Failure := ⟨.divisionByZero 7, some (place 14 24)⟩
    ofSource "p" ":= a 1 @ + a // * 7 a b" = .ok p ∧
      (execute ⟨.unwatched, []⟩ p.toAction store).failure = some f ∧
      (p.evaluated.filter fun x => f.span = some x.span) = [quotient] ∧
      ∃ table, quotient.FailsItself table .divZero (.text "7/0") := by
  intro place product quotient sum p store f
  have hsource : ofSource "p" ":= a 1 @ + a // * 7 a b" = .ok p := rfl
  have hf : (execute ⟨.unwatched, []⟩ p.toAction store).failure = some f := rfl
  have hwatch : Watch.unwatched.cancelAt = none := rfl
  obtain ⟨before, a, after, earlier, n, later, -, -, hunique, -, -, -, value, hvalue, hitself⟩ :=
    failure_names_the_failing_node hsource hwatch [] store hf
  obtain rfl : quotient = n := by
    have hquotient : (p.evaluated.filter fun x => f.span = some x.span) = [quotient] := by decide
    exact List.singleton_inj.mp (hquotient.symm.trans hunique)
  cases hvalue
  exact ⟨hsource, hf, hunique, _, hitself⟩

end Program

end Polish
