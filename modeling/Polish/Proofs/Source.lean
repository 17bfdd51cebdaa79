import Polish.Compile
import Polish.Proofs.Grammar
import Polish.Proofs.Simulation

/-!
# Programs that come from a source

The tokens of a source are more than words: they have a place, their bytes are word bytes, and they
are well-formed. So a tree that was read from a source has a place at every node and names that are
such words, and it always has code.

* `Token.IsProper`: what holds of every token of a source.
* `Expr.vars`, `Action.names`, `IsName`: the names in a tree, and what they look like.
* `Expr.IsPlaced`: every node has a place.
* `Program.ofSource_spec`: a program that was read from a source is spelled by proper tokens.
* `Program.exists_compile`: it has code.
-/

namespace Polish

/-! ### Tokens of a source -/

namespace Word

/-- The word is a run of word bytes at a place of the source. -/
structure IsScanned (w : Word) : Prop where
  bytes : ∀ b ∈ w.text, isWordByte b = true
  line : 1 ≤ w.start.line

end Word

/-- A word that is being read will be a word of the source. -/
def Reading.IsSound : Reading → Prop
  | word start read => (∀ b ∈ read, isWordByte b = true) ∧ 1 ≤ start.line
  | gap | comment => True

theorem Position.line_advance {p : Position} (h : 1 ≤ p.line) (b : UInt8) :
    1 ≤ (p.advance b).line := by
  unfold advance
  split
  · exact Nat.le_add_left 1 p.line
  · split <;> exact h

/-- The scanner finds words only. The induction is on the rest of the source; the state between two
bytes is sound. -/
theorem isScanned_of_mem_scanFrom {bs : Bytes} {r : Reading} {p : Position} (hr : r.IsSound)
    (hp : 1 ≤ p.line) {w : Word} (hw : w ∈ scanFrom r p bs) : w.IsScanned := by
  induction bs generalizing r p with
  | nil =>
    cases r with
    | gap | comment => cases hw
    | word start read =>
      rw [scanFrom, List.mem_singleton] at hw
      subst hw
      exact ⟨fun b hb => hr.1 b (List.mem_reverse.mp hb), hr.2⟩
  | cons b rest ih =>
    have hadvance := Position.line_advance hp b
    cases r with
    | gap =>
      rw [scanFrom] at hw
      split at hw
      · -- a word starts here, and this byte is its first
        next hword =>
        have hsound : (Reading.word p [b]).IsSound :=
          ⟨fun c hc => by rw [List.mem_singleton.mp hc]; exact hword, hp⟩
        exact ih hsound hadvance hw
      · refine ih ?_ hadvance hw
        split <;> trivial
    | comment =>
      rw [scanFrom] at hw
      refine ih ?_ hadvance hw
      split <;> trivial
    | word start read =>
      rw [scanFrom] at hw
      split at hw
      · next hword =>
        have hsound : (Reading.word start (b :: read)).IsSound := by
          refine ⟨fun c hc => ?_, hr.2⟩
          rcases List.mem_cons.mp hc with rfl | hc
          · exact hword
          · exact hr.1 c hc
        exact ih hsound hadvance hw
      · rcases List.mem_cons.mp hw with rfl | hw
        · exact ⟨fun b hb => hr.1 b (List.mem_reverse.mp hb), hr.2⟩
        · refine ih ?_ hadvance hw
          split <;> trivial

/-- What holds of every token of a source. -/
structure Token.IsProper (t : Token) : Prop where
  bytes : ∀ b ∈ t.text, isWordByte b = true
  wellFormed : t.text.isWellFormed = true
  line : 1 ≤ t.span.startLine

theorem isProper_of_mem_tokenize {file source : Bytes} {ts : List Token}
    (h : tokenize file source = .ok ts) : ∀ t ∈ ts, t.IsProper := by
  intro t ht
  obtain ⟨w, hw, hword⟩ := Result.exists_mem_of_mapM h t ht
  have hscanned : w.IsScanned := isScanned_of_mem_scanFrom (r := .gap) trivial (Nat.le_refl 1) hw
  unfold Word.toToken at hword
  split at hword
  · next hformed =>
    cases hword
    refine ⟨hscanned.bytes, hformed, ?_⟩
    show (1 : Int) ≤ w.start.line
    have hline := hscanned.line
    omega
  · cases hword

/-- A program that was read from a source is spelled by proper tokens. -/
theorem Program.ofSource_spec {file source : Bytes} {p : Program}
    (h : ofSource file source = .ok p) :
    ∃ ts, (∀ t ∈ ts, t.IsProper) ∧ ReadsProgram ts p.actions := by
  obtain ⟨ts, hts, hp⟩ := Result.bind_eq_ok.mp h
  exact ⟨ts, isProper_of_mem_tokenize hts, (ofTokens_eq_ok.mp hp).2⟩

/-! ### Names and places in a tree -/

/-- The names an expression reads, in the order of evaluation. -/
def Expr.vars : Expr → List Bytes
  | missing | const _ _ => []
  | var _ name => [name]
  | binary _ _ l r => l.vars ++ r.vars
  | unary _ _ e => e.vars

/-- Every node of the expression is there and has a place. -/
def Expr.IsPlaced : Expr → Prop
  | missing => False
  | const span _ | var span _ => span.isZero = false
  | binary span _ l r => span.isZero = false ∧ l.IsPlaced ∧ r.IsPlaced
  | unary span _ e => span.isZero = false ∧ e.IsPlaced

namespace Action

mutual

/-- The names a statement reads. -/
def vars : Action → List Bytes
  | missing => []
  | assign _ _ rhs => rhs.vars
  | print _ e => e.vars
  | seq _ as => varsAll as

/-- The names statements read. -/
def varsAll : List Action → List Bytes
  | [] => []
  | a :: as => a.vars ++ varsAll as

end

mutual

/-- The names in a statement, read or assigned. -/
def names : Action → List Bytes
  | missing => []
  | assign _ target rhs => target :: rhs.vars
  | print _ e => e.vars
  | seq _ as => namesAll as

/-- The names in statements. -/
def namesAll : List Action → List Bytes
  | [] => []
  | a :: as => a.names ++ namesAll as

end

/-- Every expression of a statement has a place at each node. -/
def IsPlaced : Action → Prop
  | assign _ _ e | print _ e => e.IsPlaced
  | missing | seq _ _ => True

end Action

/-- The names a program reads. -/
def Program.vars (p : Program) : List Bytes := Action.varsAll p.actions

/-- A name that a source can spell. -/
structure IsName (name : Bytes) : Prop where
  identifier : isIdentifier name = true
  bytes : ∀ b ∈ name, isWordByte b = true
  wellFormed : name.isWellFormed = true

theorem Token.IsProper.isName {t : Token} (h : t.IsProper) (hkind : t.kind = .ident) :
    IsName t.text :=
  ⟨Token.describes_kind hkind, h.bytes, h.wellFormed⟩

/-- A range that starts at a token of a source is a place. -/
theorem Token.IsProper.isZero_tokensSpan {t : Token} (h : t.IsProper) (ts : List Token) :
    (tokensSpan (t :: ts)).isZero = false := by
  rw [Bool.eq_false_iff]
  intro hzero
  have hstart : t.span.startLine = 0 := congrArg Span.startLine (Span.isZero_iff.mp hzero)
  have hline := h.line
  omega

namespace Reads

variable {ts : List Token} {e : Expr}

/-- An expression of a source has a place at every node. -/
theorem isPlaced (h : Reads ts e) (hts : ∀ t ∈ ts, t.IsProper) : e.IsPlaced := by
  induction h with
  | var _ | const _ _ => exact (hts _ List.mem_cons_self).isZero_tokensSpan []
  | binary _ _ _ ihl ihr =>
    refine ⟨(hts _ List.mem_cons_self).isZero_tokensSpan _, ?_, ?_⟩
    · exact ihl fun t ht => hts t (List.mem_cons_of_mem _ (List.mem_append_left _ ht))
    · exact ihr fun t ht => hts t (List.mem_cons_of_mem _ (List.mem_append_right _ ht))
  | unary _ _ ih =>
    refine ⟨(hts _ List.mem_cons_self).isZero_tokensSpan _, ?_⟩
    exact ih fun t ht => hts t (List.mem_cons_of_mem _ ht)

/-- The names in an expression of a source. -/
theorem isName (h : Reads ts e) (hts : ∀ t ∈ ts, t.IsProper) :
    ∀ name ∈ e.vars, IsName name := by
  induction h with
  | var hkind =>
    intro name hname
    rw [List.mem_singleton.mp hname]
    exact (hts _ List.mem_cons_self).isName hkind
  | const _ _ =>
    intro name hname
    cases hname
  | binary _ _ _ ihl ihr =>
    intro name hname
    rcases List.mem_append.mp hname with hname | hname
    · exact ihl (fun t ht => hts t (List.mem_cons_of_mem _ (List.mem_append_left _ ht))) name hname
    · exact ihr (fun t ht => hts t (List.mem_cons_of_mem _ (List.mem_append_right _ ht))) name hname
  | unary _ _ ih => exact ih fun t ht => hts t (List.mem_cons_of_mem _ ht)

end Reads

namespace ReadsProgram

variable {ts : List Token} {as : List Action}

theorem isPlaced (h : ReadsProgram ts as) (hts : ∀ t ∈ ts, t.IsProper) :
    ∀ a ∈ as, a.IsPlaced := by
  induction h with
  | nil => simp
  | cons hs _ ih =>
    intro a ha
    rcases List.mem_cons.mp ha with rfl | ha
    · have hstatement := fun t ht => hts t (List.mem_append_left _ ht)
      cases hs with
      | assign _ _ he =>
        exact he.isPlaced fun t ht =>
          hstatement t (List.mem_cons_of_mem _ (List.mem_cons_of_mem _ ht))
      | print _ he => exact he.isPlaced fun t ht => hstatement t (List.mem_cons_of_mem _ ht)
    · exact ih (fun t ht => hts t (List.mem_append_right _ ht)) a ha

/-- The names in a program of a source. -/
theorem isName (h : ReadsProgram ts as) (hts : ∀ t ∈ ts, t.IsProper) :
    ∀ name ∈ Action.namesAll as, IsName name := by
  induction h with
  | nil =>
    intro name hname
    cases hname
  | cons hs _ ih =>
    intro name hname
    rcases List.mem_append.mp hname with hname | hname
    · have hstatement := fun t ht => hts t (List.mem_append_left _ ht)
      cases hs with
      | @assign m x _ _ _ hx he =>
        rcases List.mem_cons.mp hname with rfl | hname
        · exact (hstatement x (by simp)).isName hx
        · refine he.isName (fun t ht => hstatement t ?_) name hname
          exact List.mem_cons_of_mem _ (List.mem_cons_of_mem _ ht)
      | print _ he =>
        exact he.isName (fun t ht => hstatement t (List.mem_cons_of_mem _ ht)) name hname
    · exact ih (fun t ht => hts t (List.mem_append_right _ ht)) name hname

end ReadsProgram

/-! ### Code of what can be written -/

theorem Expr.exists_compile {e : Expr} (h : e.IsWritten) : ∃ code, e.compile = .ok code := by
  induction e with
  | missing => exact h.elim
  | const span v => exact ⟨_, rfl⟩
  | var span name => exact ⟨_, rfl⟩
  | binary span symbol l r ihl ihr =>
    obtain ⟨⟨op, hop⟩, hl, hr⟩ := h
    obtain ⟨left, hleft⟩ := ihl hl
    obtain ⟨right, hright⟩ := ihr hr
    exact ⟨_, compile_binary_eq_ok.mpr ⟨op, left, right, hop, hleft, hright, rfl⟩⟩
  | unary span symbol e ih =>
    obtain ⟨⟨op, hop⟩, he⟩ := h
    obtain ⟨operand, hoperand⟩ := ih he
    exact ⟨_, compile_unary_eq_ok.mpr ⟨op, operand, hop, hoperand, rfl⟩⟩

theorem Action.exists_compileAll {as : List Action} (h : ∀ a ∈ as, a.IsWritten) :
    ∃ code, compileAll as = .ok code := by
  induction as with
  | nil => exact ⟨[], rfl⟩
  | cons a as ih =>
    obtain ⟨rest, hrest⟩ := ih fun b hb => h b (List.mem_cons_of_mem a hb)
    have ha := h a List.mem_cons_self
    cases a with
    | missing | seq => exact ha.elim
    | assign span target rhs =>
      obtain ⟨value, hvalue⟩ := Expr.exists_compile ha.2
      have hfirst : (assign span target rhs).compile = .ok (value ++ [.store target]) :=
        compile_assign_eq_ok.mpr ⟨value, hvalue, rfl⟩
      exact ⟨_, compileAll_cons_eq_ok.mpr ⟨_, rest, hfirst, hrest, rfl⟩⟩
    | print span e =>
      obtain ⟨value, hvalue⟩ := Expr.exists_compile ha
      have hfirst : (print span e).compile = .ok (value ++ [.print]) :=
        compile_print_eq_ok.mpr ⟨value, hvalue, rfl⟩
      exact ⟨_, compileAll_cons_eq_ok.mpr ⟨_, rest, hfirst, hrest, rfl⟩⟩

/-- A program that can be written has code. -/
theorem Program.exists_compile {p : Program} (h : p.IsWritten) : ∃ code, p.compile = .ok code :=
  Action.exists_compileAll h

end Polish
