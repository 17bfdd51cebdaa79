import Polish.Check
import Polish.Proofs.Source

/-!
# What the static checks promise

The checks walk a program in the order of evaluation. They keep the names assigned so far and the
values of constant subexpressions, so they know less than a run does, but what they know is right.

1. `Expr.foretells_check`: an expression that has a value has no findings. If its evaluation fails
   because of an unbound name, or if the expression is constant, the first finding is that failure.
2. `Action.foretells_checkAll`: the same for statements. Between two statements the names assigned
   are exactly the names with a value (`Covers`).
3. `Program.check_eq_nil`, `Program.announces_check`: the same for a program that was read from a
   source. By the agreement of the two ways of running it, this holds of both.
-/

namespace Polish

/-! ### What is known between two statements, and what a finding tells -/

/-- The assigned names are exactly the names with a value. -/
def Covers (assigned : List Bytes) (store : Store) : Prop :=
  ∀ name, name ∈ assigned ↔ (store.get? name).isSome = true

theorem covers_empty : Covers [] .empty := by
  intro name
  rw [NameMap.get?_empty]
  simp

/-- An assignment keeps the names covered. -/
theorem Covers.put {assigned : List Bytes} {store : Store} (h : Covers assigned store)
    (target : Bytes) (v : Int64) : Covers (target :: assigned) (store.put target v) := by
  intro name
  rw [NameMap.get?_put, List.mem_cons, h name]
  by_cases heq : name = target
  · simp [heq]
  · simp [heq]

/-- The first finding tells of the failure: it has its code and its place and, for an unbound name,
the name. -/
def Announces (found : List Failure) (f : Failure) : Prop :=
  ∃ d, found.head? = some d ∧ d.code = f.code ∧ d.span = f.span ∧
    (f.code = .unbound → d.fault.value? = f.fault.value?)

theorem Announces.append {found : List Failure} {f : Failure} (h : Announces found f)
    (more : List Failure) : Announces (found ++ more) f := by
  obtain ⟨d, hd, hsame⟩ := h
  refine ⟨d, ?_, hsame⟩
  rw [List.head?_append, hd, Option.some_or]

theorem Announces.ne_nil {found : List Failure} {f : Failure} (h : Announces found f) :
    found ≠ [] := by
  obtain ⟨d, hd, -⟩ := h
  rintro rfl
  cases hd

/-- What is announced of an unbound name. -/
theorem Announces.of_unbound {found : List Failure} {f : Failure} (h : Announces found f)
    (hunbound : f.code = .unbound) :
    ∃ d, found.head? = some d ∧ d.code = .unbound ∧ d.fault.value? = f.fault.value? ∧
      d.span = f.span := by
  obtain ⟨d, hd, hcode, hspan, hvalue⟩ := h
  exact ⟨d, hd, hcode.trans hunbound, hvalue hunbound, hspan⟩

theorem announces_singleton {f g : Fault} (span : Span) (hcode : g.code = f.code)
    (hvalue : f.code = .unbound → g.value? = f.value?) :
    Announces [.atSpan g span] (.atSpan f span) :=
  ⟨_, rfl, hcode, rfl, hvalue⟩

/-! ### Expressions -/

/-- The expression has a meaning that no table changes: it reads no names, and its operators
exist. -/
def Expr.IsConstant (e : Expr) : Prop := e.IsWritten ∧ e.vars = []

/-- What a finding says of the result it foretells. A value has no failures before it, and a value
that is known is the right one; a value or failure that is certain, or an unbound name, is found. -/
def Foretells (certain : Prop) : Except Failure Int64 → Finding → Prop
  | .ok v, found =>
    found.failures = [] ∧ (∀ w, found.value? = some w → w = v) ∧ (certain → found.value? = some v)
  | .error f, found =>
    found.value? = none ∧ (certain ∨ f.code = .unbound → Announces found.failures f)

/-- The two ways in which a binary operator fails. -/
theorem applyBinary_eq_error {symbol : Bytes} {a b : Int64} {f : Fault}
    (h : applyBinary symbol a b = .error f) :
    (symbol = BinaryOp.div.symbol ∧ b = 0 ∧ f = .divisionByZero a) ∨
      (BinaryOp.ofSymbol? symbol = none ∧ f = .unknownBinary symbol) := by
  unfold applyBinary at h
  split at h
  · next op hop =>
    left
    have hsymbol := BinaryOp.symbol_of_ofSymbol? hop
    cases op with
    | add | sub | mul => cases h
    | div =>
      simp only [BinaryOp.apply] at h
      split at h
      · next hzero =>
        cases h
        exact ⟨hsymbol.symm, hzero, rfl⟩
      · cases h
  · next hop =>
    cases h
    exact .inr ⟨hop, rfl⟩

/-- The two ways in which a unary operator fails. -/
theorem applyUnary_eq_error {symbol : Bytes} {a : Int64} {f : Fault}
    (h : applyUnary symbol a = .error f) :
    f = .negativeRoot a ∨ (UnaryOp.ofSymbol? symbol = none ∧ f = .unknownUnary symbol) := by
  unfold applyUnary at h
  split at h
  · next op hop =>
    left
    cases op with
    | neg => cases h
    | sqrt =>
      simp only [UnaryOp.apply] at h
      split at h
      · cases h
        rfl
      · cases h
  · next hop =>
    cases h
    exact .inr ⟨hop, rfl⟩

namespace Expr

variable {span : Span} {symbol : Bytes} {l r e : Expr} {assigned : List Bytes} {store : Store}

theorem IsConstant.of_binary (h : (binary span symbol l r).IsConstant) :
    (∃ op, BinaryOp.ofSymbol? symbol = some op) ∧ l.IsConstant ∧ r.IsConstant := by
  obtain ⟨⟨hop, hl, hr⟩, hvars⟩ := h
  obtain ⟨hnol, hnor⟩ := List.append_eq_nil_iff.mp hvars
  exact ⟨hop, ⟨hl, hnol⟩, ⟨hr, hnor⟩⟩

theorem IsConstant.of_unary (h : (unary span symbol e).IsConstant) :
    (∃ op, UnaryOp.ofSymbol? symbol = some op) ∧ e.IsConstant :=
  ⟨h.1.1, h.1.2, h.2⟩

/-- If the value of an operand is not known, that of the operation is not known either; the findings
of the operands come first. -/
theorem check_binary_of_none
    (h : (l.check assigned).value? = none ∨ (r.check assigned).value? = none) :
    ∃ more, (binary span symbol l r).check assigned
        = ⟨(l.check assigned).failures ++ (r.check assigned).failures ++ more, none⟩ ∧
      ((r.check assigned).value? = none → more = []) := by
  rw [check]
  split
  · next hdiv =>
    refine ⟨_, rfl, fun hnone => ?_⟩
    rw [hnone] at hdiv
    cases hdiv.2
  · refine ⟨[], ?_, fun _ => rfl⟩
    rw [List.append_nil]
    split
    · next hleft hright =>
      rw [hleft, hright] at h
      simp at h
    · rfl

/-- A failure of an operator other than by a divisor known to be zero is neither certain nor an
unbound name. -/
theorem not_certain_of_applyBinary {a b : Int64} {f : Fault}
    (hf : applyBinary symbol a b = .error f)
    (hdiv : ¬ (symbol = BinaryOp.div.symbol ∧ (r.check assigned).value? = some 0))
    (hr : r.IsConstant → (r.check assigned).value? = some b) :
    ¬ ((binary span symbol l r).IsConstant ∨ f.code = .unbound) := by
  intro hcertain
  rcases applyBinary_eq_error hf with ⟨rfl, rfl, rfl⟩ | ⟨hop, rfl⟩
  · rcases hcertain with hconstant | hcode
    · exact hdiv ⟨rfl, hr hconstant.of_binary.2.2⟩
    · cases hcode
  · rcases hcertain with hconstant | hcode
    · obtain ⟨op, hop'⟩ := hconstant.of_binary.1
      rw [hop] at hop'
      cases hop'
    · cases hcode

/-- An operation on operands that have values. -/
theorem foretells_binary {a b : Int64} (hl : Foretells l.IsConstant (.ok a) (l.check assigned))
    (hr : Foretells r.IsConstant (.ok b) (r.check assigned)) :
    Foretells (binary span symbol l r).IsConstant
      ((applyBinary symbol a b).mapError (.atSpan · span))
      ((binary span symbol l r).check assigned) := by
  obtain ⟨hlnil, hlvalue, hlcertain⟩ := hl
  obtain ⟨hrnil, hrvalue, hrcertain⟩ := hr
  rw [check, hlnil, hrnil]
  split
  · -- a divisor known to be zero is zero
    next hdiv =>
    obtain ⟨rfl, hzero⟩ := hdiv
    have hb := hrvalue 0 hzero
    subst hb
    exact ⟨rfl, fun _ => announces_singleton span rfl (fun h => by cases h)⟩
  · next hdiv =>
    split
    · next hleft hright =>
      have ha := hlvalue _ hleft
      have hb := hrvalue _ hright
      subst ha hb
      cases happly : applyBinary symbol _ _ with
      | ok v => exact ⟨rfl, fun w hw => (Option.some.inj hw).symm, fun _ => rfl⟩
      | error f =>
        refine ⟨rfl, fun hcertain => ?_⟩
        exact absurd hcertain (not_certain_of_applyBinary happly hdiv hrcertain)
    · next hunknown =>
      cases happly : applyBinary symbol a b with
      | ok v =>
        refine ⟨rfl, fun w hw => (by cases hw), fun hconstant => ?_⟩
        obtain ⟨-, hlconstant, hrconstant⟩ := hconstant.of_binary
        exact absurd (hrcertain hrconstant) (hunknown a b (hlcertain hlconstant))
      | error f =>
        refine ⟨rfl, fun hcertain => ?_⟩
        exact absurd hcertain (not_certain_of_applyBinary happly hdiv hrcertain)

/-- An operation on an operand that has a value. -/
theorem foretells_unary {a : Int64} (he : Foretells e.IsConstant (.ok a) (e.check assigned)) :
    Foretells (unary span symbol e).IsConstant ((applyUnary symbol a).mapError (.atSpan · span))
      ((unary span symbol e).check assigned) := by
  obtain ⟨hnil, hvalue, hcertain⟩ := he
  rw [check]
  split
  · next hnone =>
    have hunknown : ¬ (unary span symbol e).IsConstant := by
      intro hconstant
      rw [hcertain hconstant.of_unary.2] at hnone
      cases hnone
    cases happly : applyUnary symbol a with
    | ok v =>
      refine ⟨hnil, fun w hw => ?_, fun h => absurd h hunknown⟩
      rw [hnone] at hw
      cases hw
    | error f =>
      refine ⟨hnone, fun h => ?_⟩
      rcases h with hconstant | hcode
      · exact absurd hconstant hunknown
      · rcases applyUnary_eq_error happly with rfl | ⟨-, rfl⟩ <;> cases hcode
  · next hsome =>
    have ha := hvalue _ hsome
    subst ha
    cases happly : applyUnary symbol _ with
    | ok v => exact ⟨hnil, fun w hw => (Option.some.inj hw).symm, fun _ => rfl⟩
    | error f =>
      refine ⟨rfl, fun _ => ?_⟩
      rw [hnil]
      exact announces_singleton span rfl fun _ => rfl

/-- **Expressions.** The check of an expression foretells its evaluation on every table with values
for the assigned names. -/
theorem foretells_check (hcover : Covers assigned store) (e : Expr) :
    Foretells e.IsConstant (e.eval store) (e.check assigned) := by
  induction e with
  | missing =>
    refine ⟨rfl, fun h => ?_⟩
    rcases h with hconstant | hcode
    · exact hconstant.1.elim
    · cases hcode
  | const span v => exact ⟨rfl, fun w hw => (Option.some.inj hw).symm, fun _ => rfl⟩
  | var span name =>
    have hname := hcover name
    rw [eval, Store.get, check]
    cases hget : store.get? name with
    | some v =>
      rw [if_pos (hname.mpr (by rw [hget]; rfl))]
      exact ⟨rfl, fun w hw => (by cases hw), fun hconstant => (by cases hconstant.2)⟩
    | none =>
      rw [if_neg (fun hmem => by rw [hname, hget] at hmem; cases hmem)]
      exact ⟨rfl, fun _ => announces_singleton span rfl fun _ => rfl⟩
  | binary span symbol l r ihl ihr =>
    rw [eval]
    cases hle : l.eval store with
    | error f =>
      -- the findings of the operand that fails come first
      rw [hle] at ihl
      obtain ⟨more, hcheck, -⟩ := check_binary_of_none (.inl ihl.1)
      rw [hcheck]
      refine ⟨rfl, fun hcertain => ?_⟩
      rw [List.append_assoc]
      exact (ihl.2 (hcertain.imp_left fun h => h.of_binary.2.1)).append _
    | ok a =>
      rw [hle] at ihl
      cases hre : r.eval store with
      | error f =>
        -- the left operand has a value, so it has no findings
        rw [hre] at ihr
        obtain ⟨more, hcheck, hmore⟩ := check_binary_of_none (.inr ihr.1)
        rw [hcheck, hmore ihr.1, ihl.1, List.append_nil, List.nil_append]
        exact ⟨rfl, fun hcertain => ihr.2 (hcertain.imp_left fun h => h.of_binary.2.2)⟩
      | ok b =>
        rw [hre] at ihr
        exact foretells_binary ihl ihr
  | unary span symbol e ih =>
    rw [eval]
    cases hev : e.eval store with
    | error f =>
      rw [hev] at ih
      have hcheck : (unary span symbol e).check assigned = e.check assigned := by
        rw [check, ih.1]
      rw [hcheck]
      exact ⟨ih.1, fun hcertain => ih.2 (hcertain.imp_left fun h => h.of_unary.2)⟩
    | ok a =>
      rw [hev] at ih
      exact foretells_unary ih

theorem span_of_mapError {place : Span} {result : Except Fault Int64} {f : Failure}
    (hplace : place.isZero = false) (h : result.mapError (.atSpan · place) = .error f) :
    f.span = some place := by
  cases result with
  | ok v => cases h
  | error g =>
    cases h
    show place.toOption = some place
    rw [Span.toOption, hplace]
    rfl

/-- A failure of an expression with places has a place. -/
theorem span_of_eval {f : Failure} (h : e.IsPlaced) (hf : e.eval store = .error f) :
    ∃ place, f.span = some place := by
  induction e with
  | missing => exact h.elim
  | const span v => cases hf
  | var span name => exact ⟨span, span_of_mapError h hf⟩
  | binary span symbol l r ihl ihr =>
    obtain ⟨hspan, hl, hr⟩ := h
    rw [eval] at hf
    cases hle : l.eval store with
    | error g =>
      rw [hle] at hf
      exact ihl hl (hle.trans hf)
    | ok a =>
      rw [hle] at hf
      cases hre : r.eval store with
      | error g =>
        rw [hre] at hf
        exact ihr hr (hre.trans hf)
      | ok b =>
        rw [hre] at hf
        exact ⟨span, span_of_mapError hspan hf⟩
  | unary span symbol e ih =>
    obtain ⟨hspan, he⟩ := h
    rw [eval] at hf
    cases hev : e.eval store with
    | error g =>
      rw [hev] at hf
      exact ih he (hev.trans hf)
    | ok a =>
      rw [hev] at hf
      exact ⟨span, span_of_mapError hspan hf⟩

end Expr

/-! ### Statements -/

/-- What findings say of the statements they foretell. Statements that complete have no findings,
and their names are covered; a failure that is certain, or an unbound name, is found. -/
def ForetellsRun (certain : Prop) :
    Except Halted Progress → List Failure × List Bytes → Prop
  | .ok s, (found, assigned) => found = [] ∧ Covers assigned s.store
  | .error halted, (found, _) =>
    certain ∨ halted.failure.code = .unbound → Announces found halted.failure

theorem ForetellsRun.imp_certain {p q : Prop} {result : Except Halted Progress}
    {found : List Failure × List Bytes} (h : ForetellsRun p result found) (hpq : q → p) :
    ForetellsRun q result found := by
  cases result with
  | ok s => exact h
  | error halted => exact fun hcertain => h (hcertain.imp_left hpq)

namespace Action

variable {info : RunInfo} {assigned : List Bytes}

/-- One statement: the check of its expression foretells it, if the effect of the statement keeps
the names covered. -/
theorem foretells_runStatement (hwatch : ∀ n, info.watch.canceled n = false) {sort : Bytes}
    {span : Span} {e : Expr} {effect : Int64 → Progress → Progress}
    {data : Int64 → List (Bytes × Bytes)} {s : Progress} {after : List Bytes}
    (hplaced : e.IsPlaced) (hcover : Covers assigned s.store)
    (heffect : ∀ v (s : Progress), Covers assigned s.store → Covers after (effect v s).store) :
    ForetellsRun e.IsConstant (runStatement info sort span e effect data s)
      ((e.check assigned).failures, after) := by
  rw [runStatement, hwatch]
  generalize hstarted : s.report info .stmtStart span [("kind", sort)] = started
  have hstore : started.store = s.store := by
    rw [← hstarted, Progress.report_store]
  rw [← hstore] at hcover
  have hcheck := Expr.foretells_check hcover e
  simp only [Bool.false_eq_true, if_false]
  cases hev : e.eval started.store with
  | error f =>
    -- the failure has a place of its own, so the statement adds none
    rw [hev] at hcheck
    obtain ⟨place, hspan⟩ := Expr.span_of_eval hplaced hev
    simp only [Failure.locate_of_span hspan]
    exact hcheck.2
  | ok v =>
    rw [hev] at hcheck
    refine ⟨hcheck.1, ?_⟩
    rw [Progress.report_store]
    exact heffect v started hcover

/-- One statement of a source. -/
theorem foretells_check (hwatch : ∀ n, info.watch.canceled n = false) {a : Action}
    (hwritten : a.IsWritten) (hplaced : a.IsPlaced) {s : Progress}
    (hcover : Covers assigned s.store) :
    ForetellsRun (a.vars = []) (a.exec info s) (a.check assigned) := by
  cases a with
  | missing | seq => exact hwritten.elim
  | assign span target rhs =>
    have hrun : ForetellsRun rhs.IsConstant ((assign span target rhs).exec info s)
        ((assign span target rhs).check assigned) :=
      foretells_runStatement hwatch hplaced hcover fun v s h => h.put target v
    exact hrun.imp_certain fun h => ⟨hwritten.2, h⟩
  | print span e =>
    have hrun : ForetellsRun e.IsConstant ((print span e).exec info s)
        ((print span e).check assigned) :=
      foretells_runStatement hwatch hplaced hcover fun v s h => h
    exact hrun.imp_certain fun h => ⟨hwritten, h⟩

/-- **Statements.** The checks of the statements of a source foretell their run. The induction is on
the statements that follow; the names assigned so far are covered. -/
theorem foretells_checkAll (hwatch : ∀ n, info.watch.canceled n = false) {as : List Action}
    (hwritten : ∀ a ∈ as, a.IsWritten) (hplaced : ∀ a ∈ as, a.IsPlaced) {s : Progress}
    (hcover : Covers assigned s.store) :
    ForetellsRun (varsAll as = []) (execAll info as s) (checkAll assigned as) := by
  induction as generalizing assigned s with
  | nil => exact ⟨rfl, hcover⟩
  | cons a as ih =>
    have hfirst := foretells_check hwatch (hwritten a List.mem_cons_self)
      (hplaced a List.mem_cons_self) hcover
    rw [execAll, checkAll]
    cases hexec : a.exec info s with
    | error halted =>
      rw [hexec] at hfirst
      intro hcertain
      have hvars := hcertain.imp_left fun h => (List.append_eq_nil_iff.mp h).1
      exact Announces.append (hfirst hvars) _
    | ok s' =>
      rw [hexec] at hfirst
      obtain ⟨hnil, hafter⟩ := hfirst
      have hrest := ih (fun b hb => hwritten b (List.mem_cons_of_mem a hb))
        (fun b hb => hplaced b (List.mem_cons_of_mem a hb)) hafter
      simp only [hnil, List.nil_append]
      exact hrest.imp_certain fun h => (List.append_eq_nil_iff.mp h).2

end Action

/-! ### Programs of a source -/

namespace Program

variable {p : Program} {info : RunInfo}

/-- The checks of a program foretell the run of its statements that `execute` makes. -/
theorem foretells_check (hwritten : p.IsWritten) (hplaced : ∀ a ∈ p.actions, a.IsPlaced)
    (hwatch : ∀ n, info.watch.canceled n = false) :
    ∃ result, (execute info p.toAction .empty).failure = (Execution.ofExcept result).failure ∧
      ForetellsRun (p.vars = []) result (p.check, (Action.checkAll [] p.actions).2) := by
  obtain ⟨s, hempty, hfailure, -⟩ := execute_eq info p.toAction .empty
  have hstore : s.store = .empty := congrArg Machine.store hempty
  refine ⟨_, hfailure, Action.foretells_checkAll hwatch hwritten hplaced ?_⟩
  rw [hstore]
  exact covers_empty

/-- A program that completes has no findings. -/
theorem check_eq_nil (hwritten : p.IsWritten) (hplaced : ∀ a ∈ p.actions, a.IsPlaced)
    (hwatch : ∀ n, info.watch.canceled n = false)
    (hnone : (execute info p.toAction .empty).failure = none) : p.check = [] := by
  obtain ⟨result, hfailure, hforetells⟩ := foretells_check hwritten hplaced hwatch
  rw [hfailure] at hnone
  cases result with
  | ok s => exact hforetells.1
  | error halted => cases hnone

/-- The first finding announces an unbound name and, in a program that reads no names, every
failure. -/
theorem announces_check (hwritten : p.IsWritten) (hplaced : ∀ a ∈ p.actions, a.IsPlaced)
    (hwatch : ∀ n, info.watch.canceled n = false) {f : Failure}
    (hsome : (execute info p.toAction .empty).failure = some f)
    (hcertain : p.vars = [] ∨ f.code = .unbound) : Announces p.check f := by
  obtain ⟨result, hfailure, hforetells⟩ := foretells_check hwritten hplaced hwatch
  rw [hfailure] at hsome
  cases result with
  | ok s => cases hsome
  | error halted =>
    cases hsome
    exact hforetells hcertain

/-- **The static checks miss nothing they promise to catch.** A program that was read from a source
has code, and on both ways of running it without cancellation:

* if the run fails at an unbound name, the first finding has that code and that name and, for the
  interpreter, the same place; so a program without findings never fails at an unbound name;
* a program that reads no names succeeds exactly if it has no findings, and otherwise the
  interpreter's failure has the code and the place of the first finding. -/
theorem check_promises {file source : Bytes} (hsource : ofSource file source = .ok p)
    {watch : Watch} (hwatch : watch.cancelAt = none) (runId : Bytes) (reports : Nat) :
    ∃ code, p.compile = .ok code ∧
      let x := execute ⟨watch, runId⟩ p.toAction .empty
      let r := Machine.run watch reports code
      (∀ f, x.failure = some f → f.code = .unbound →
        ∃ d, p.check.head? = some d ∧ d.code = .unbound ∧ d.fault.value? = f.fault.value? ∧
          d.span = f.span) ∧
      (∀ f, r.failure = some f → f.code = .unbound →
        ∃ d, p.check.head? = some d ∧ d.code = .unbound ∧ d.fault.value? = f.fault.value?) ∧
      (p.check = [] → (∀ f, x.failure = some f → f.code ≠ .unbound) ∧
        ∀ f, r.failure = some f → f.code ≠ .unbound) ∧
      (p.vars = [] →
        (x.failure = none ↔ p.check = []) ∧ (r.failure = none ↔ p.check = []) ∧
        ∀ f, x.failure = some f →
          ∃ d, p.check.head? = some d ∧ d.code = f.code ∧ d.span = f.span) := by
  obtain ⟨ts, hproper, hreads⟩ := ofSource_spec hsource
  have hwritten : p.IsWritten := hreads.isWritten
  have hplaced := hreads.isPlaced hproper
  have hfree : ∀ n, watch.canceled n = false := fun n => by rw [Watch.canceled, hwatch]
  obtain ⟨code, hcode⟩ := exists_compile hwritten
  refine ⟨code, hcode, ?_⟩
  intro x r
  have hsame : SameEffect x r := sameEffect_of_compile hcode (.inl hwatch) runId reports
  have hnil : x.failure = none → p.check = [] := check_eq_nil hwritten hplaced hfree
  have hannounces : ∀ f, x.failure = some f → p.vars = [] ∨ f.code = .unbound →
      Announces p.check f := fun f => announces_check hwritten hplaced hfree
  refine ⟨?_, ?_, ?_, ?_⟩
  · intro f hf hunbound
    exact (hannounces f hf (.inr hunbound)).of_unbound hunbound
  · intro g hg hunbound
    obtain ⟨f, hf, hfg, hvalue⟩ := hsame.exists_failure hg
    rw [← hfg] at hunbound
    obtain ⟨d, hd, hdcode, hdvalue, -⟩ := (hannounces f hf (.inr hunbound)).of_unbound hunbound
    exact ⟨d, hd, hdcode, hdvalue.trans hvalue⟩
  · intro hnone
    have hbound : ∀ f, x.failure = some f → f.code ≠ .unbound := fun f hf hunbound =>
      (hannounces f hf (.inr hunbound)).ne_nil hnone
    refine ⟨hbound, fun g hg => ?_⟩
    obtain ⟨f, hf, hfg, -⟩ := hsame.exists_failure hg
    rw [← hfg]
    exact hbound f hf
  · intro hvars
    have hiff : x.failure = none ↔ p.check = [] := by
      refine ⟨hnil, fun hnone => ?_⟩
      cases hx : x.failure with
      | none => rfl
      | some f => exact absurd hnone (hannounces f hx (.inl hvars)).ne_nil
    refine ⟨hiff, hsame.succeeds.symm.trans hiff, fun f hf => ?_⟩
    obtain ⟨d, hd, hcode, hspan, -⟩ := hannounces f hf (.inl hvars)
    exact ⟨d, hd, hcode, hspan⟩

/-- The second name of a sum has no value: the run of the tree fails there, and so says the first
finding. -/
theorem check_promises_sum :
    let place (first last : Int) : Span := ⟨"p", 1, first, 1, last⟩
    let p : Program := ⟨place 1 15, [.assign (place 1 7) "a" (.const (place 6 7) 1),
      .print (place 8 15)
        (.binary (place 10 15) "+" (.var (place 12 13) "a") (.var (place 14 15) "b"))]⟩
    let x := execute ⟨.unwatched, []⟩ p.toAction .empty
    let f : Failure := ⟨.unbound "b", some (place 14 15)⟩
    ofSource "p" ":= a 1 @ + a b" = .ok p ∧ x.failure = some f ∧
      ∃ d, p.check.head? = some d ∧ d.code = .unbound ∧ d.fault.value? = some (.text "b") ∧
        d.span = f.span := by
  intro place p x f
  have hsource : ofSource "p" ":= a 1 @ + a b" = .ok p := rfl
  have hfailure : x.failure = some f := rfl
  have hwatch : Watch.unwatched.cancelAt = none := rfl
  obtain ⟨code, -, hunbound, -⟩ := check_promises hsource hwatch [] 0
  exact ⟨hsource, hfailure, hunbound f hfailure rfl⟩

end Program

end Polish
