import Polish.Proofs.Cutting

/-!
# Reading never leaves the tokens

The reader by position asks for tokens by their number without a look whether there are so many. It
asks for the next token only where it is not at the end, and for the last one only after it has taken
one; since no group of the cut is empty, the first token of a statement is there as well. To follow
the cursor, say which token it took last and which tokens are ahead. In these words it is the reader
with a stack: where one hands an operand to the operators that wait, the other returns it to the call
that waits.

1. `TokenCursor.StandsAt`: where the cursor is; `advance_eq`, `last_eq`, `token_eq`: what it gives
   there.
2. `TokenCursor.Keeps`, `TokenCursor.keeps_readExpr`: both readers do the same with an expression, by
   induction on the tokens ahead.
3. `TokenCursor.readRest_eq`, `TokenCursor.readStatement_eq`: and with a statement.
4. `Program.ofTokensByPosition_eq`: and with a program.
5. `splitStatements_is_the_only_cut`: the cut, and why reading its groups is safe.
-/

namespace Polish

namespace TokenCursor

variable {c : TokenCursor} {prev t : Token} {rest : List Token}

/-! ### Where the cursor is -/

/-- The cursor took `prev` last and has `rest` ahead. -/
def StandsAt (c : TokenCursor) (prev : Token) (rest : List Token) : Prop :=
  ∃ front, c.tokens = front ++ prev :: rest ∧ c.taken = front.length + 1

theorem StandsAt.atEnd_eq (h : c.StandsAt prev rest) : c.atEnd = rest.isEmpty := by
  obtain ⟨front, htokens, htaken⟩ := h
  rw [atEnd, htokens, htaken]
  cases rest <;> simp

theorem StandsAt.last_eq (h : c.StandsAt prev rest) : c.last = .ok prev := by
  obtain ⟨front, htokens, htaken⟩ := h
  simp [last, token, htokens, htaken]

theorem StandsAt.token_eq (h : c.StandsAt prev (t :: rest)) : c.token c.taken = .ok t := by
  obtain ⟨front, htokens, htaken⟩ := h
  simp [token, htokens, htaken]

/-- Where there is a token, the cursor takes it. -/
theorem advance_of_getElem? (h : c.tokens[c.taken]? = some t) :
    ∃ d : c.Beyond, c.advance = .ok (t, d) ∧ d.1 = { c with taken := c.taken + 1 } := by
  rw [advance]
  split
  · next u hu =>
    obtain rfl : u = t := Option.some.inj (hu.symm.trans h)
    exact ⟨_, rfl, rfl⟩
  · next hnone => simp [h] at hnone

theorem StandsAt.advance_eq (h : c.StandsAt prev (t :: rest)) :
    ∃ d : c.Beyond, c.advance = .ok (t, d) ∧ d.1.StandsAt t rest := by
  obtain ⟨front, htokens, htaken⟩ := h
  obtain ⟨d, hadvance, hd⟩ := advance_of_getElem? (c := c) (t := t) (by simp [htokens, htaken])
  refine ⟨d, hadvance, front ++ [prev], ?_, ?_⟩
  · rw [hd, htokens, List.append_assoc]
    rfl
  · rw [hd, htaken, List.length_append]
    rfl

theorem advance_first (t : Token) (rest : List Token) :
    ∃ d : (⟨t :: rest, 0⟩ : TokenCursor).Beyond,
      advance ⟨t :: rest, 0⟩ = .ok (t, d) ∧ d.1.StandsAt t rest := by
  obtain ⟨d, hadvance, hd⟩ := advance_of_getElem? (c := ⟨t :: rest, 0⟩) (t := t) rfl
  exact ⟨d, hadvance, [], by rw [hd]; rfl, by rw [hd]; rfl⟩

/-! ### Expressions -/

/-- Both readers do the same with the tokens ahead: they read the same expression and stop at the same
token, or refuse the tokens for the same reason, whichever operators wait. -/
inductive Keeps (c : TokenCursor) (prev : Token) (rest : List Token) : Prop where
  | read (e : Expr) (d : c.Beyond) (last : Token) (later : List Token)
      (hcursor : c.readExpr = .ok (e, d)) (hstands : d.1.StandsAt last later)
      (hstack : ∀ stack, Polish.readExpr stack prev rest
        = resume last later (supply last.span e stack))
  | refused (f : Failure) (hcursor : c.readExpr = .error (.refused f))
      (hstack : ∀ stack, Polish.readExpr stack prev rest = .error f)

section Ahead

/-! The cursor is not at the end: `t` is taken, and `d` has `rest` ahead. -/

variable {d : c.Beyond} (hend : c.atEnd = false) (hadvance : c.advance = .ok (t, d))
include hend hadvance

theorem readExpr_eq_of_leaf {e : Expr} (hleaf : leaf t = .ok (.inl e)) :
    c.readExpr = .ok (e, d) := by
  rw [readExpr, if_neg (by simp [hend]), hadvance, Result.ok_bind]
  unfold leaf at hleaf
  cases hkind : t.kind with
  | ident =>
    simp only [hkind] at hleaf ⊢
    cases hleaf
    rfl
  | numeral =>
    cases hvalue : Decimal.readInt64? t.text with
    | some v =>
      simp only [hkind, hvalue] at hleaf ⊢
      cases hleaf
      rfl
    | none => simp [hkind, hvalue] at hleaf
  | binary _ | unary _ | assign | print | unknown => simp [hkind] at hleaf

theorem readExpr_eq_of_unary {op : UnaryOp} (hkind : t.kind = .unary op) :
    c.readExpr = do
      let (e, d₂) ← d.1.readExpr
      let last ← d₂.1.last
      return (.unary (t.span.through last.span) t.text e, d.trans d₂) := by
  rw [readExpr, if_neg (by simp [hend]), hadvance, Result.ok_bind]
  simp only [hkind]

theorem readExpr_eq_of_binary {op : BinaryOp} (hkind : t.kind = .binary op) :
    c.readExpr = do
      let (l, d₂) ← d.1.readExpr
      let (r, d₃) ← d₂.1.readExpr
      let last ← d₃.1.last
      return (.binary (t.span.through last.span) t.text l r, d.trans (d₂.trans d₃)) := by
  rw [readExpr, if_neg (by simp [hend]), hadvance, Result.ok_bind]
  simp only [hkind]

theorem readExpr_eq_of_refused {f : Failure} (hleaf : leaf t = .error f) :
    c.readExpr = .error (.refused f) := by
  rw [readExpr, if_neg (by simp [hend]), hadvance, Result.ok_bind]
  unfold leaf at hleaf
  cases hkind : t.kind with
  | numeral =>
    cases hvalue : Decimal.readInt64? t.text with
    | some v => simp [hkind, hvalue] at hleaf
    | none =>
      simp only [hkind, hvalue] at hleaf ⊢
      cases hleaf
      rfl
  | assign | print | unknown =>
    simp only [hkind] at hleaf ⊢
    cases hleaf
    rfl
  | ident | binary _ | unary _ => simp [hkind] at hleaf

/-- Both readers do the same with an operator and its operand. -/
theorem keeps_of_unary {op : UnaryOp} (hkind : t.kind = .unary op) (hoperand : d.1.Keeps t rest) :
    c.Keeps prev (t :: rest) := by
  have hread := readExpr_eq_of_unary hend hadvance hkind
  have hstep := (readExpr_of_operator (leaf_unary hkind) · prev rest)
  cases hoperand with
  | refused f hcursor hstack =>
    rw [hcursor] at hread
    exact .refused f hread fun stack => (hstep stack).trans (hstack _)
  | read e d₂ last later hcursor hstands hstack =>
    simp only [Result.ok_bind, hcursor, hstands.last_eq] at hread
    exact .read _ _ last later hread hstands fun stack => (hstep stack).trans (hstack _)

/-- Both readers do the same with an operator and its operands, the right one where the left one
ends. -/
theorem keeps_of_binary {op : BinaryOp} (hkind : t.kind = .binary op) (hleft : d.1.Keeps t rest)
    (hright : ∀ (d₂ : d.1.Beyond) last later, d₂.1.StandsAt last later → d₂.1.Keeps last later) :
    c.Keeps prev (t :: rest) := by
  have hread := readExpr_eq_of_binary hend hadvance hkind
  have hstep := (readExpr_of_operator (leaf_binary hkind) · prev rest)
  cases hleft with
  | refused f hcursor hstack =>
    rw [hcursor] at hread
    exact .refused f hread fun stack => (hstep stack).trans (hstack _)
  | read l d₂ lastl later hcursor hstands hstack =>
    -- the operator that waited for its left operand now waits for its right one
    have hwaits stack :
        Polish.readExpr stack prev (t :: rest)
          = Polish.readExpr (.right t l :: stack) lastl later :=
      (hstep stack).trans (hstack _)
    simp only [Result.ok_bind, hcursor] at hread
    cases hright d₂ lastl later hstands with
    | refused f hcursor hstack =>
      rw [hcursor] at hread
      exact .refused f hread fun stack => (hwaits stack).trans (hstack _)
    | read r d₃ lastr later hcursor hstands hstack =>
      simp only [Result.ok_bind, hcursor, hstands.last_eq] at hread
      exact .read _ _ lastr later hread hstands fun stack => (hwaits stack).trans (hstack _)

end Ahead

/-- **Expressions.** The recursion is on the tokens ahead: the right operand is read from where the
left one ended. -/
theorem keeps_readExpr {c : TokenCursor} {prev : Token} {rest : List Token}
    (h : c.StandsAt prev rest) : c.Keeps prev rest := by
  cases rest with
  | nil =>
    have hend : c.atEnd = true := h.atEnd_eq
    refine .refused (.atSpan (.noExpression prev.text) prev.span) ?_ fun _ => rfl
    rw [readExpr, if_pos hend, h.last_eq]
    rfl
  | cons t rest =>
    have hend : c.atEnd = false := h.atEnd_eq
    obtain ⟨d, hadvance, hd⟩ := h.advance_eq
    -- a leaf, an operator with two operands or with one, or a token that is refused
    rcases leaf_cases t with ⟨e, hleaf, -⟩ | ⟨op, hop⟩ | ⟨op, hop⟩ | ⟨f, hleaf⟩
    · have hread := readExpr_eq_of_leaf hend hadvance hleaf
      exact .read e d t rest hread hd (readExpr_of_leaf hleaf · prev rest)
    · refine keeps_of_binary hend hadvance hop (keeps_readExpr hd) fun d₂ last later hstands => ?_
      exact keeps_readExpr hstands
    · exact keeps_of_unary hend hadvance hop (keeps_readExpr hd)
    · have hread := readExpr_eq_of_refused hend hadvance hleaf
      exact .refused f hread (readExpr_of_refused hleaf · prev rest)
termination_by c.ahead
decreasing_by
  · exact d.2
  · exact (d.trans d₂).2
  · exact d.2

/-! ### Statements -/

theorem StandsAt.expectEnd_eq {c : TokenCursor} {prev : Token} {rest : List Token}
    (h : c.StandsAt prev rest) :
    c.expectEnd = (Polish.expectEnd rest).mapError .refused := by
  rw [expectEnd, h.atEnd_eq]
  cases rest with
  | nil => rfl
  | cons t rest =>
    rw [if_neg (by simp), h.token_eq]
    rfl

/-- Both readers do the same with the expression that ends a statement. -/
theorem readRest_eq {c : TokenCursor} {prev : Token} {rest : List Token}
    (h : c.StandsAt prev rest) (build : Span → Expr → Action) :
    c.readRest build = (Polish.readRest prev rest build).mapError .refused := by
  rw [readRest, Polish.readRest]
  cases keeps_readExpr h with
  | refused f hcursor hstack =>
    rw [hcursor, hstack]
    rfl
  | read e d last later hcursor hstands hstack =>
    have hwhole : Polish.readExpr [] prev rest = .ok (e, last, later) := hstack []
    simp only [hcursor, hwhole, Result.ok_bind, hstands.expectEnd_eq, hstands.last_eq]
    cases later <;> rfl

/-- **Statements.** Both readers do the same with the tokens of a statement. -/
theorem readStatement_eq (c : Clause) :
    readStatement c.toList = c.read.mapError .refused := by
  obtain ⟨first, rest⟩ := c
  obtain ⟨⟨d, hfewer⟩, hadvance, hd⟩ := advance_first first rest
  rw [readStatement, Clause.toList, hadvance, Result.ok_bind]
  cases hkind : first.kind with
  | assign =>
    cases rest with
    | nil =>
      have hend : d.atEnd = true := hd.atEnd_eq
      simp only [hkind, hend, if_true, Clause.read]
      rfl
    | cons target rest =>
      have hend : d.atEnd = false := hd.atEnd_eq
      obtain ⟨⟨e, hfewer⟩, hadvance, he⟩ := hd.advance_eq
      simp only [hkind, hend, Bool.false_eq_true, if_false, hadvance, Result.ok_bind]
      by_cases htarget : target.kind = .ident
      · rw [if_pos htarget, Clause.read_assign hkind htarget]
        exact readRest_eq he _
      · simp only [htarget, if_false, Clause.read, hkind]
        rfl
  | print =>
    rw [Clause.read_print hkind]
    simp only [hkind]
    exact readRest_eq hd _
  | ident | numeral | binary | unary | unknown =>
    simp only [hkind, Clause.read]
    rfl

/-- A statement without tokens would not be safe to read; the cut makes none. -/
theorem readStatement_nil : readStatement [] = .error .outOfRange := rfl

end TokenCursor

/-! ### Programs -/

/-- **Programs.** Both readers do the same with all tokens. -/
theorem Program.ofTokensByPosition_eq (ts : List Token) :
    ofTokensByPosition ts = (ofTokens ts).mapError .refused := by
  have hread : (cutAtMarkers ts).mapM TokenCursor.readStatement
      = ((splitStatements ts).mapM Clause.read).mapError .refused := by
    rw [cutAtMarkers_eq, List.mapM_map, ← Result.mapM_mapError]
    exact congrArg (List.mapM · (splitStatements ts)) (funext TokenCursor.readStatement_eq)
  rw [ofTokensByPosition, ofTokens, hread]
  cases (splitStatements ts).mapM Clause.read <;> rfl

theorem Mishap.mapError_refused_ne {α : Type} (x : Except Failure α) :
    x.mapError Mishap.refused ≠ .error .outOfRange := by
  cases x <;> simp [Except.mapError]

/-- **The only cut, and a safe one.** Take any tokens. The groups of the cut keep the rules of a
division into statements, every division that keeps them is this one, and the pass with an open group
makes it. Tokens behind others, the first of them a marker, are cut by themselves. A reader that asks
for tokens by their number asks in none of the groups, nor in all of them one after the other, for one
that is not there; and what it reads is what is read without numbers. -/
theorem splitStatements_is_the_only_cut (ts : List Token) :
    let groups := (splitStatements ts).map Clause.toList
    (IsCut ts groups ∧ (∀ others, IsCut ts others → others = groups) ∧ cutAtMarkers ts = groups) ∧
    (∀ us, StartsStatement us →
      splitStatements (ts ++ us) = splitStatements ts ++ splitStatements us) ∧
    (∀ g ∈ groups, TokenCursor.readStatement g ≠ .error .outOfRange) ∧
    Program.ofTokensByPosition ts ≠ .error .outOfRange ∧
    Program.ofTokensByPosition ts = (Program.ofTokens ts).mapError .refused := by
  intro groups
  have hprogram := Program.ofTokensByPosition_eq ts
  refine ⟨⟨isCut_splitStatements ts, fun others h => h.eq_splitStatements, cutAtMarkers_eq ts⟩,
    fun us hus => splitStatements_append_of_startsStatement ts hus, ?_, ?_, hprogram⟩
  · -- every group is a clause, so it has the first token that is taken without a look
    refine List.forall_mem_map.mpr fun c _ => ?_
    rw [TokenCursor.readStatement_eq]
    exact Mishap.mapError_refused_ne c.read
  · rw [hprogram]
    exact Mishap.mapError_refused_ne _

end Polish
