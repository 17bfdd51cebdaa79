import Polish.Tree.Parser
import Polish.Proofs.Result

/-!
# What the reader of programs accepts

The reader cuts the tokens before every marker and then reads each statement with a stack of waiting
operators. This module says without cut and stack which tokens spell which tree, and that the reader
accepts exactly these.

* `Reads`, `ReadsStatement`, `ReadsProgram`: the tokens spell the tree, places included.
* `readExpr_append`: reading the tokens of an expression hands it to the waiting operators.
* `reads_or_fails`: tokens that do not start with an expression are refused by every stack.
* `splitStatements_append`: a statement followed by a marker, or by nothing, is cut off whole.
* `Program.ofTokens_eq_ok`: the reader returns a tree exactly when the tokens spell it.
-/

namespace Polish

/-! ### Ranges of tokens -/

theorem tokensSpan_eq_through {first last : Token} {rest : List Token}
    (h : (first :: rest).getLast? = some last) :
    tokensSpan (first :: rest) = first.span.through last.span := by
  rw [List.getLast?_eq_some_getLast (by simp)] at h
  rw [tokensSpan, Option.some.inj h]

theorem getLast?_cons_of_some (first : Token) {last : Token} {rest : List Token}
    (h : rest.getLast? = some last) : (first :: rest).getLast? = some last := by
  rw [List.getLast?_cons, h]
  rfl

theorem getLast?_append_of_some (front : List Token) {rest : List Token} {last : Token}
    (h : rest.getLast? = some last) : (front ++ rest).getLast? = some last := by
  rw [List.getLast?_append, h]
  rfl

/-! ### Expressions -/

/-- The tokens spell the expression. -/
inductive Reads : List Token → Expr → Prop where
  | var {t : Token} (hkind : t.kind = .ident) : Reads [t] (.var t.span t.text)
  | const {t : Token} {v : Int64} (hkind : t.kind = .numeral)
      (hvalue : Decimal.readInt64? t.text = some v) : Reads [t] (.const t.span v)
  | binary {t : Token} {op : BinaryOp} {ls rs : List Token} {l r : Expr}
      (hkind : t.kind = .binary op) (hl : Reads ls l) (hr : Reads rs r) :
      Reads (t :: (ls ++ rs)) (.binary (tokensSpan (t :: (ls ++ rs))) t.text l r)
  | unary {t : Token} {op : UnaryOp} {ts : List Token} {e : Expr}
      (hkind : t.kind = .unary op) (he : Reads ts e) :
      Reads (t :: ts) (.unary (tokensSpan (t :: ts)) t.text e)

/-- An expression has at least one token. -/
theorem Reads.exists_last {ts : List Token} {e : Expr} (h : Reads ts e) :
    ∃ last, ts.getLast? = some last := by
  induction h with
  | @var t _ => exact ⟨t, rfl⟩
  | @const t _ _ _ => exact ⟨t, rfl⟩
  | binary _ _ _ _ ihr =>
    obtain ⟨last, hlast⟩ := ihr
    exact ⟨last, getLast?_cons_of_some _ (getLast?_append_of_some _ hlast)⟩
  | unary _ _ ih =>
    obtain ⟨last, hlast⟩ := ih
    exact ⟨last, getLast?_cons_of_some _ hlast⟩

/-- What the reader does once an operand is complete: it stops, or reads the next operand. -/
def resume (last : Token) (rest : List Token) :
    Expr ⊕ List Pending → Except Failure (Expr × Token × List Token)
  | .inl e => .ok (e, last, rest)
  | .inr stack => readExpr stack last rest

theorem readExpr_of_leaf {t : Token} {e : Expr} (hleaf : leaf t = .ok (.inl e))
    (stack : List Pending) (prev : Token) (rest : List Token) :
    readExpr stack prev (t :: rest) = resume t rest (supply t.span e stack) := by
  rw [readExpr, hleaf]
  cases h : supply t.span e stack <;> simp [resume, h]

theorem readExpr_of_operator {t : Token} {op : Pending} (hleaf : leaf t = .ok (.inr op))
    (stack : List Pending) (prev : Token) (rest : List Token) :
    readExpr stack prev (t :: rest) = readExpr (op :: stack) t rest := by
  rw [readExpr, hleaf]

theorem readExpr_of_refused {t : Token} {f : Failure} (hleaf : leaf t = .error f)
    (stack : List Pending) (prev : Token) (rest : List Token) :
    readExpr stack prev (t :: rest) = .error f := by
  rw [readExpr, hleaf]

theorem leaf_ident {t : Token} (h : t.kind = .ident) :
    leaf t = .ok (.inl (.var t.span t.text)) := by
  rw [leaf, h]

theorem leaf_numeral {t : Token} {v : Int64} (h : t.kind = .numeral)
    (hvalue : Decimal.readInt64? t.text = some v) : leaf t = .ok (.inl (.const t.span v)) := by
  rw [leaf, h]
  simp only [hvalue]

theorem leaf_binary {t : Token} {op : BinaryOp} (h : t.kind = .binary op) :
    leaf t = .ok (.inr (.left t)) := by
  rw [leaf, h]

theorem leaf_unary {t : Token} {op : UnaryOp} (h : t.kind = .unary op) :
    leaf t = .ok (.inr (.operand t)) := by
  rw [leaf, h]

/-- Reading the tokens of an expression hands it to the operators that wait. -/
theorem readExpr_append {ts : List Token} {e : Expr} (h : Reads ts e) {last : Token}
    (hlast : ts.getLast? = some last) (stack : List Pending) (prev : Token) (rest : List Token) :
    readExpr stack prev (ts ++ rest) = resume last rest (supply last.span e stack) := by
  induction h generalizing last stack prev rest with
  | var hkind =>
    cases hlast
    exact readExpr_of_leaf (leaf_ident hkind) stack prev rest
  | const hkind hvalue =>
    cases hlast
    exact readExpr_of_leaf (leaf_numeral hkind hvalue) stack prev rest
  | @binary t op ls rs l r hkind hl hr ihl ihr =>
    obtain ⟨lastl, hlastl⟩ := hl.exists_last
    obtain ⟨lastr, hlastr⟩ := hr.exists_last
    have hwhole := getLast?_cons_of_some t (getLast?_append_of_some ls hlastr)
    obtain rfl : lastr = last := Option.some.inj (hwhole.symm.trans hlast)
    rw [List.cons_append, List.append_assoc, readExpr_of_operator (leaf_binary hkind),
      ihl hlastl]
    -- the operator that waited for its left operand now waits for its right one
    show readExpr (.right t l :: stack) lastl (rs ++ rest) = _
    rw [ihr hlastr, tokensSpan_eq_through hlast]
    rfl
  | @unary t op ts e hkind he ih =>
    obtain ⟨laste, hlaste⟩ := he.exists_last
    have hwhole := getLast?_cons_of_some t hlaste
    obtain rfl : laste = last := Option.some.inj (hwhole.symm.trans hlast)
    rw [List.cons_append, readExpr_of_operator (leaf_unary hkind), ih hlaste,
      tokensSpan_eq_through hlast]
    rfl

/-- What a token means inside an expression. -/
theorem leaf_cases (t : Token) :
    (∃ e, leaf t = .ok (.inl e) ∧ Reads [t] e) ∨
    (∃ op, t.kind = .binary op) ∨ (∃ op, t.kind = .unary op) ∨ (∃ f, leaf t = .error f) := by
  cases hkind : t.kind with
  | ident => exact .inl ⟨_, leaf_ident hkind, .var hkind⟩
  | numeral =>
    cases hvalue : Decimal.readInt64? t.text with
    | some v => exact .inl ⟨_, leaf_numeral hkind hvalue, .const hkind hvalue⟩
    | none =>
      refine .inr (.inr (.inr ⟨.atSpan (.numeralTooLarge t.text) t.span, ?_⟩))
      rw [leaf, hkind]
      simp only [hvalue]
  | binary op => exact .inr (.inl ⟨op, rfl⟩)
  | unary op => exact .inr (.inr (.inl ⟨op, rfl⟩))
  | assign | print | unknown =>
    refine .inr (.inr (.inr ⟨.atSpan (.unknownToken t.text) t.span, ?_⟩))
    rw [leaf, hkind]

/-- Tokens start with an expression, or every stack of waiting operators refuses them. The recursion
is on the number of tokens: the right operand is read from what the left one leaves. -/
theorem reads_or_fails : (ts : List Token) →
    (∃ used rest e, ts = used ++ rest ∧ Reads used e) ∨
      ∀ stack prev, ∃ f, readExpr stack prev ts = .error f
  | [] => .inr fun _ _ => ⟨_, rfl⟩
  | t :: ts => by
    rcases leaf_cases t with ⟨e, -, he⟩ | ⟨op, hop⟩ | ⟨op, hop⟩ | ⟨f, hf⟩
    · exact .inl ⟨[t], ts, e, rfl, he⟩
    · rcases reads_or_fails ts with ⟨ls, rest, l, hts, hl⟩ | hfail
      · have hshorter : rest.length ≤ ts.length := by simp [hts]
        obtain ⟨last, hlast⟩ := hl.exists_last
        rcases reads_or_fails rest with ⟨rs, rest', r, rfl, hr⟩ | hfail
        · refine .inl ⟨t :: (ls ++ rs), rest', _, ?_, .binary hop hl hr⟩
          rw [hts, List.cons_append, List.append_assoc]
        · -- the right operand is refused with the left one on the stack
          refine .inr fun stack prev => ?_
          obtain ⟨f, hf⟩ := hfail (.right t l :: stack) last
          refine ⟨f, ?_⟩
          rw [hts, readExpr_of_operator (leaf_binary hop), readExpr_append hl hlast]
          exact hf
      · refine .inr fun stack prev => ?_
        rw [readExpr_of_operator (leaf_binary hop)]
        exact hfail _ _
    · rcases reads_or_fails ts with ⟨used, rest, e, rfl, he⟩ | hfail
      · exact .inl ⟨t :: used, rest, _, rfl, .unary hop he⟩
      · refine .inr fun stack prev => ?_
        rw [readExpr_of_operator (leaf_unary hop)]
        exact hfail _ _
    · exact .inr fun stack prev => ⟨f, readExpr_of_refused hf stack prev ts⟩
termination_by ts => ts.length

/-- **Expressions.** The reader returns an expression exactly when the tokens before the rest spell
it. -/
theorem readExpr_eq_ok {prev last : Token} {ts rest : List Token} {e : Expr} :
    readExpr [] prev ts = .ok (e, last, rest) ↔
      ∃ used, ts = used ++ rest ∧ Reads used e ∧ used.getLast? = some last := by
  constructor
  · intro h
    rcases reads_or_fails ts with ⟨used, rest', e', rfl, he⟩ | hfail
    · obtain ⟨last', hlast'⟩ := he.exists_last
      rw [readExpr_append he hlast'] at h
      cases h
      exact ⟨used, rfl, he, hlast'⟩
    · obtain ⟨f, hf⟩ := hfail [] prev
      rw [hf] at h
      cases h
  · rintro ⟨used, rfl, he, hlast⟩
    rw [readExpr_append he hlast]
    rfl

/-! ### Statements -/

/-- The tokens spell the statement. -/
inductive ReadsStatement : List Token → Action → Prop where
  | assign {m x : Token} {ts : List Token} {e : Expr} (hm : m.kind = .assign)
      (hx : x.kind = .ident) (he : Reads ts e) :
      ReadsStatement (m :: x :: ts) (.assign (tokensSpan (m :: x :: ts)) x.text e)
  | print {m : Token} {ts : List Token} {e : Expr} (hm : m.kind = .print) (he : Reads ts e) :
      ReadsStatement (m :: ts) (.print (tokensSpan (m :: ts)) e)

theorem expectEnd_eq_ok {ts : List Token} : expectEnd ts = .ok () ↔ ts = [] := by
  cases ts <;> simp [expectEnd]

/-- The last part of reading a statement: an expression that takes all the tokens left. -/
def readRest (prev : Token) (ts : List Token) (build : Span → Expr → Action) :
    Except Failure Action := do
  let (e, last, rest) ← readExpr [] prev ts
  expectEnd rest
  return build last.span e

theorem readRest_eq_ok {prev : Token} {ts : List Token} {build : Span → Expr → Action}
    {a : Action} :
    readRest prev ts build = .ok a ↔
      ∃ e last, Reads ts e ∧ ts.getLast? = some last ∧ a = build last.span e := by
  rw [readRest, Result.bind_eq_ok]
  constructor
  · rintro ⟨⟨e, last, rest⟩, hread, h⟩
    obtain ⟨⟨⟩, hend, h⟩ := Result.bind_eq_ok.mp h
    obtain ⟨used, rfl, he, hlast⟩ := readExpr_eq_ok.mp hread
    rw [expectEnd_eq_ok] at hend
    subst hend
    rw [List.append_nil]
    cases h
    exact ⟨e, last, he, hlast, rfl⟩
  · rintro ⟨e, last, he, hlast, rfl⟩
    refine ⟨(e, last, []), ?_, rfl⟩
    exact readExpr_eq_ok.mpr ⟨ts, (List.append_nil ts).symm, he, hlast⟩

namespace Clause

theorem read_assign {m x : Token} {ts : List Token} (hm : m.kind = .assign)
    (hx : x.kind = .ident) :
    read ⟨m, x :: ts⟩ = readRest x ts fun last e => .assign (m.span.through last) x.text e := by
  simp only [read, hm, hx, if_true]
  rfl

theorem read_print {m : Token} {ts : List Token} (hm : m.kind = .print) :
    read ⟨m, ts⟩ = readRest m ts fun last e => .print (m.span.through last) e := by
  simp only [read, hm]
  rfl

/-- A clause that is read starts with a marker, and an assignment names its target. -/
theorem kind_of_read_eq_ok {c : Clause} {a : Action} (h : c.read = .ok a) :
    (∃ x ts, c.rest = x :: ts ∧ c.first.kind = .assign ∧ x.kind = .ident) ∨
      c.first.kind = .print := by
  obtain ⟨first, rest⟩ := c
  cases hkind : first.kind with
  | assign =>
    simp only [read, hkind] at h
    cases rest with
    | nil => cases h
    | cons x ts =>
      by_cases hx : x.kind = .ident
      · exact .inl ⟨x, ts, rfl, rfl, hx⟩
      · simp only [hx, if_false] at h
        cases h
  | print => exact .inr rfl
  | ident | numeral | binary | unary | unknown =>
    simp only [read, hkind] at h
    cases h

/-- **Statements.** A clause is read as a statement exactly when its tokens spell it. -/
theorem read_eq_ok {c : Clause} {a : Action} : c.read = .ok a ↔ ReadsStatement c.toList a := by
  obtain ⟨first, rest⟩ := c
  constructor
  · intro h
    rcases kind_of_read_eq_ok h with ⟨x, ts, hrest, hm, hx⟩ | hm
    · cases hrest
      rw [read_assign hm hx] at h
      obtain ⟨e, last, he, hlast, rfl⟩ := readRest_eq_ok.mp h
      have hwhole := getLast?_cons_of_some first (getLast?_cons_of_some x hlast)
      rw [← tokensSpan_eq_through hwhole]
      exact .assign hm hx he
    · rw [read_print hm] at h
      obtain ⟨e, last, he, hlast, rfl⟩ := readRest_eq_ok.mp h
      rw [← tokensSpan_eq_through (getLast?_cons_of_some first hlast)]
      exact .print hm he
  · intro h
    cases h with
    | @assign _ x ts e hm hx he =>
      obtain ⟨last, hlast⟩ := he.exists_last
      have hwhole := getLast?_cons_of_some first (getLast?_cons_of_some x hlast)
      rw [read_assign hm hx, tokensSpan_eq_through hwhole]
      exact readRest_eq_ok.mpr ⟨e, last, he, hlast, rfl⟩
    | @print _ _ e hm he =>
      obtain ⟨last, hlast⟩ := he.exists_last
      rw [read_print hm, tokensSpan_eq_through (getLast?_cons_of_some first hlast)]
      exact readRest_eq_ok.mpr ⟨e, last, he, hlast, rfl⟩

end Clause

/-! ### The cut at the markers -/

namespace Token

theorem isMarker_eq_true_iff {t : Token} :
    t.isMarker = true ↔ t.kind = .assign ∨ t.kind = .print := by
  unfold isMarker
  cases t.kind <;> simp

theorem isMarker_eq_false {t : Token} (h₁ : t.kind ≠ .assign) (h₂ : t.kind ≠ .print) :
    t.isMarker = false := by
  rw [Bool.eq_false_iff, ne_eq, isMarker_eq_true_iff]
  exact fun h => h.elim h₁ h₂

end Token

/-- No token of an expression is a marker. -/
theorem Reads.unmarked {ts : List Token} {e : Expr} (h : Reads ts e) :
    ∀ t ∈ ts, t.isMarker = false := by
  induction h with
  | var hkind | const hkind _ =>
    intro t ht
    rw [List.mem_singleton.mp ht]
    exact Token.isMarker_eq_false (by simp [hkind]) (by simp [hkind])
  | binary hkind _ _ ihl ihr =>
    intro t ht
    rcases List.mem_cons.mp ht with rfl | ht
    · exact Token.isMarker_eq_false (by simp [hkind]) (by simp [hkind])
    · exact (List.mem_append.mp ht).elim (ihl t) (ihr t)
  | unary hkind _ ih =>
    intro t ht
    rcases List.mem_cons.mp ht with rfl | ht
    · exact Token.isMarker_eq_false (by simp [hkind]) (by simp [hkind])
    · exact ih t ht

/-- A statement is a marker and tokens that are none. -/
theorem ReadsStatement.exists_clause {ts : List Token} {a : Action} (h : ReadsStatement ts a) :
    ∃ c : Clause, ts = c.toList ∧ c.first.isMarker = true ∧ ∀ t ∈ c.rest, t.isMarker = false := by
  cases h with
  | @assign m x ts e hm hx he =>
    refine ⟨⟨m, x :: ts⟩, rfl, Token.isMarker_eq_true_iff.mpr (.inl hm), ?_⟩
    intro t ht
    rcases List.mem_cons.mp ht with rfl | ht
    · exact Token.isMarker_eq_false (by simp [hx]) (by simp [hx])
    · exact he.unmarked t ht
  | @print m ts e hm he =>
    exact ⟨⟨m, ts⟩, rfl, Token.isMarker_eq_true_iff.mpr (.inr hm), he.unmarked⟩

/-- Nothing, or tokens that start a statement. -/
def StartsStatement : List Token → Prop
  | [] => True
  | t :: _ => t.isMarker = true

/-- The first clause starts with the first token. -/
theorem splitStatements_cons (t : Token) (ts : List Token) :
    ∃ rest cs, splitStatements (t :: ts) = ⟨t, rest⟩ :: cs := by
  rw [splitStatements]
  cases splitStatements ts with
  | nil => exact ⟨[], [], rfl⟩
  | cons c cs =>
    simp only
    split
    · exact ⟨[], c :: cs, rfl⟩
    · exact ⟨c.toList, cs, rfl⟩

/-- The cut loses no token. -/
theorem flatMap_splitStatements (ts : List Token) :
    (splitStatements ts).flatMap Clause.toList = ts := by
  induction ts with
  | nil => rfl
  | cons t ts ih =>
    rw [splitStatements]
    cases hsplit : splitStatements ts with
    | nil =>
      rw [hsplit] at ih
      rw [← ih]
      rfl
    | cons c cs =>
      rw [hsplit] at ih
      simp only
      split <;> · rw [← ih]; simp [Clause.toList]

/-- A statement followed by another one, or by nothing, is cut off whole. -/
theorem splitStatements_append {first : Token} {rest ts : List Token}
    (hrest : ∀ t ∈ rest, t.isMarker = false) (hts : StartsStatement ts) :
    splitStatements (first :: rest ++ ts) = ⟨first, rest⟩ :: splitStatements ts := by
  induction rest generalizing first with
  | nil =>
    rw [List.cons_append, List.nil_append, splitStatements]
    cases ts with
    | nil => rfl
    | cons u us =>
      obtain ⟨rest, cs, hsplit⟩ := splitStatements_cons u us
      have hmarker : u.isMarker = true := hts
      simp only [hsplit, hmarker, if_true]
  | cons u us ih =>
    have hu : u.isMarker = false := hrest u List.mem_cons_self
    have hus : splitStatements (u :: us ++ ts) = ⟨u, us⟩ :: splitStatements ts :=
      ih fun t ht => hrest t (List.mem_cons_of_mem u ht)
    rw [List.cons_append, splitStatements, hus]
    simp only [hu, Bool.false_eq_true, if_false]
    rfl

/-! ### Programs -/

/-- The tokens spell the statements, one after the other. -/
inductive ReadsProgram : List Token → List Action → Prop where
  | nil : ReadsProgram [] []
  | cons {s ts : List Token} {a : Action} {as : List Action} (hs : ReadsStatement s a)
      (hts : ReadsProgram ts as) : ReadsProgram (s ++ ts) (a :: as)

theorem ReadsProgram.startsStatement {ts : List Token} {as : List Action}
    (h : ReadsProgram ts as) : StartsStatement ts := by
  cases h with
  | nil => trivial
  | cons hs _ =>
    obtain ⟨c, rfl, hmarker, -⟩ := hs.exists_clause
    exact hmarker

theorem readsProgram_of_mapM {cs : List Clause} {as : List Action}
    (h : cs.mapM Clause.read = .ok as) : ReadsProgram (cs.flatMap Clause.toList) as := by
  induction cs generalizing as with
  | nil =>
    cases h
    exact .nil
  | cons c cs ih =>
    obtain ⟨a, rest, rfl, ha, hrest⟩ := Result.mapM_eq_ok_cons.mp h
    exact .cons (Clause.read_eq_ok.mp ha) (ih hrest)

theorem ReadsProgram.mapM_splitStatements {ts : List Token} {as : List Action}
    (h : ReadsProgram ts as) : (splitStatements ts).mapM Clause.read = .ok as := by
  induction h with
  | nil => rfl
  | cons hs hts ih =>
    obtain ⟨c, rfl, -, hrest⟩ := hs.exists_clause
    rw [Clause.toList, splitStatements_append hrest hts.startsStatement]
    exact Result.mapM_eq_ok_cons.mpr ⟨_, _, rfl, Clause.read_eq_ok.mpr hs, ih⟩

/-- **Programs.** The reader returns a program exactly when the tokens spell its statements. -/
theorem Program.ofTokens_eq_ok {ts : List Token} {p : Program} :
    Program.ofTokens ts = .ok p ↔ p.span = tokensSpan ts ∧ ReadsProgram ts p.actions := by
  rw [ofTokens, Result.bind_eq_ok]
  constructor
  · rintro ⟨as, has, h⟩
    cases h
    refine ⟨rfl, ?_⟩
    have hreads := readsProgram_of_mapM has
    rwa [flatMap_splitStatements] at hreads
  · rintro ⟨hspan, hactions⟩
    refine ⟨p.actions, hactions.mapM_splitStatements, ?_⟩
    rw [← hspan]
    rfl

end Polish
