import Polish.Proofs.Lines
import Polish.Proofs.StaticCheck

/-!
# Places in a source

The words of a source stand one after the other, so no two tokens start at the same place. Every
node of a tree starts where one of its tokens does, and the tokens of two statements are different
ones. So a place belongs to one statement, and a finding of the static checks tells which one it is
about.

* `PlacedWord.Precedes`, `pairwise_precedes`: the order of the words.
* `Span.StartsBefore`, `pairwise_startsBefore`: the order of the tokens.
* `Expr.nodes`, `Action.nodes`, `Program.pairwise_nodes`: the nodes of different statements start at
  different places.
* `Expr.node_of_check`, `Action.node_of_checkAll`: what is found stands at a node.
-/

namespace Polish

/-! ### The order of words -/

/-- The word stands before the other: on an earlier line, or in the text before it on its line. -/
def PlacedWord.Precedes (v w : PlacedWord) : Prop :=
  v.line < w.line ∨ v.line = w.line ∧ ∃ gap, w.before = v.before ++ v.text ++ gap

theorem mem_pieceWords {number : Nat} {done piece : Bytes} {w : PlacedWord}
    (h : w ∈ pieceWords number done piece) : piece ≠ [] ∧ w = ⟨number, done, piece⟩ := by
  cases piece with
  | nil => cases h
  | cons b piece => exact ⟨List.cons_ne_nil b piece, List.mem_singleton.mp h⟩

/-- What is known of each word of the rest of a line. -/
theorem mem_wordsAfter {number : Nat} {done code : Bytes} {w : PlacedWord}
    (h : w ∈ wordsAfter number done code) :
    w.line = number ∧ w.text ≠ [] ∧ ∃ gap, w.before = done ++ gap := by
  have hpiece : ∀ {done piece : Bytes}, w ∈ pieceWords number done piece →
      w.line = number ∧ w.text ≠ [] ∧ ∃ gap, w.before = done ++ gap := by
    intro done piece hw
    obtain ⟨hne, rfl⟩ := mem_pieceWords hw
    exact ⟨rfl, hne, [], (List.append_nil done).symm⟩
  induction code using cut_induction (p := isLineBlank) generalizing done with
  | last piece hblank =>
    rw [wordsAfter_last number done hblank] at h
    exact hpiece h
  | cut piece b rest hblank hb ih =>
    rw [wordsAfter_cut number done hblank hb] at h
    rcases List.mem_append.mp h with h | h
    · exact hpiece h
    · obtain ⟨hline, htext, gap, hgap⟩ := ih h
      exact ⟨hline, htext, piece ++ [b] ++ gap, by simp [hgap]⟩

theorem pairwise_pieceWords (number : Nat) (done piece : Bytes) :
    (pieceWords number done piece).Pairwise PlacedWord.Precedes := by
  cases piece with
  | nil => exact .nil
  | cons b piece => exact List.pairwise_singleton _ _

/-- The words of a line stand in order. -/
theorem pairwise_wordsAfter (number : Nat) (done code : Bytes) :
    (wordsAfter number done code).Pairwise PlacedWord.Precedes := by
  induction code using cut_induction (p := isLineBlank) generalizing done with
  | last piece hblank =>
    rw [wordsAfter_last number done hblank]
    exact pairwise_pieceWords number done piece
  | cut piece b rest hblank hb ih =>
    rw [wordsAfter_cut number done hblank hb]
    refine List.pairwise_append.mpr ⟨pairwise_pieceWords number done piece, ih _, ?_⟩
    intro v hv w hw
    obtain ⟨-, rfl⟩ := mem_pieceWords hv
    -- the later word has this piece and the blank in the text before it
    obtain ⟨hline, -, gap, hgap⟩ := mem_wordsAfter hw
    exact .inr ⟨hline.symm, [b] ++ gap, by simp [hgap]⟩

/-- The words of a source, from a line number on, are not empty. -/
theorem mem_lineWords {lines : List Bytes} {number : Nat} {w : PlacedWord}
    (h : w ∈ (lines.zipIdx number).flatMap fun line => lineWords line.2 line.1) :
    number ≤ w.line ∧ w.text ≠ [] := by
  obtain ⟨line, hline, hw⟩ := List.mem_flatMap.mp h
  obtain ⟨hnumber, htext, -⟩ := mem_wordsAfter hw
  have hle := (List.mk_mem_zipIdx_iff_le_and_getElem?_sub.mp hline).1
  rw [hnumber]
  exact ⟨hle, htext⟩

/-- The words of a source stand in order. -/
theorem pairwise_precedes (source : Bytes) :
    (sourceWords source).Pairwise PlacedWord.Precedes := by
  unfold sourceWords
  generalize source.lines = lines
  generalize 1 = number
  induction lines generalizing number with
  | nil => exact .nil
  | cons line lines ih =>
    rw [List.zipIdx_cons, List.flatMap_cons]
    refine List.pairwise_append.mpr ⟨pairwise_wordsAfter number [] _, ih (number + 1), ?_⟩
    intro v hv w hw
    have hv := (mem_wordsAfter hv).1
    have hw := (mem_lineWords hw).1
    exact .inl (by omega)

/-! ### The order of tokens -/

namespace Span

/-- The line and the column where the span starts. -/
def start (s : Span) : Int × Int := (s.startLine, s.startCol)

/-- The span starts before the other. -/
def StartsBefore (s t : Span) : Prop :=
  s.startLine < t.startLine ∨ s.startLine = t.startLine ∧ s.startCol < t.startCol

theorem StartsBefore.start_ne {s t : Span} (h : s.StartsBefore t) : s.start ≠ t.start := by
  intro hstart
  obtain ⟨hline, hcol⟩ := Prod.mk.inj hstart
  rcases h with h | h
  · omega
  · omega

theorem StartsBefore.of_start_eq {s s' t t' : Span} (h : s.StartsBefore t)
    (hs : s'.start = s.start) (ht : t'.start = t.start) : s'.StartsBefore t' := by
  obtain ⟨hsl, hsc⟩ := Prod.mk.inj hs
  obtain ⟨htl, htc⟩ := Prod.mk.inj ht
  rw [StartsBefore, hsl, hsc, htl, htc]
  exact h

end Span

/-- If no word is malformed, what stands before each word is well-formed. -/
theorem Legible.before_of_mem {ws : List PlacedWord} (h : Legible ws)
    (hall : ∀ w ∈ ws, w.text.isWellFormed = true) : ∀ w ∈ ws, w.before.isWellFormed = true := by
  induction h with
  | nil => simp
  | cons before after ih =>
    obtain ⟨htext, hrest⟩ := List.forall_mem_cons.mp hall
    exact List.forall_mem_cons.mpr ⟨before, ih htext hrest⟩

/-- The tokens of a source are its words. -/
theorem tokenize_eq_ok {file source : Bytes} {ts : List Token}
    (h : tokenize file source = .ok ts) :
    (∀ w ∈ sourceWords source, w.text.isWellFormed = true) ∧
      ts = (sourceWords source).map (PlacedWord.token file) := by
  rw [tokenize_eq_readTokens] at h
  cases hfind : (sourceWords source).find? PlacedWord.isMalformed with
  | some w =>
    rw [readTokens_of_malformed hfind] at h
    cases h
  | none =>
    rw [readTokens_of_none hfind] at h
    cases h
    refine ⟨fun w hw => ?_, rfl⟩
    simpa [PlacedWord.isMalformed] using List.find?_eq_none.mp hfind w hw

/-- A word that is not empty has a first character. -/
theorem Bytes.leads_pos {text : Bytes} (h : text.isWellFormed = true) (hne : text ≠ []) :
    0 < text.leads := by
  obtain ⟨cs, rfl⟩ := exists_ofChars h
  rw [leads_ofChars, List.length_pos_iff]
  rintro rfl
  exact hne rfl

/-- The tokens of a source stand in order. -/
theorem pairwise_startsBefore {file source : Bytes} {ts : List Token}
    (h : tokenize file source = .ok ts) :
    ts.Pairwise fun t u => t.span.StartsBefore u.span := by
  obtain ⟨hall, rfl⟩ := tokenize_eq_ok h
  have hbefore := (Legible.sourceWords source).before_of_mem hall
  rw [List.pairwise_map]
  refine (pairwise_precedes source).imp_of_mem ?_
  intro v w hv hw hprecedes
  rcases hprecedes with hline | ⟨hline, gap, hgap⟩
  · exact .inl (Int.ofNat_lt.mpr hline)
  · refine .inr ⟨congrArg Int.ofNat hline, Int.ofNat_lt.mpr ?_⟩
    -- the word itself has a character, and it stands before the next one
    have htext := Bytes.leads_pos (hall v hv) (mem_lineWords hv).2
    have hleads : w.before.leads = v.before.leads + v.text.leads + gap.leads := by
      rw [hgap, Bytes.leads_append, Bytes.leads_append]
    show 1 + v.before.chars.length < 1 + w.before.chars.length
    rw [← Bytes.leads_eq_length_chars (hbefore v hv), ← Bytes.leads_eq_length_chars (hbefore w hw),
      hleads]
    omega

/-! ### Nodes -/

/-- The expression and all expressions in it. -/
def Expr.nodes : Expr → List Expr
  | missing => []
  | const span v => [const span v]
  | var span name => [var span name]
  | binary span op l r => binary span op l r :: (l.nodes ++ r.nodes)
  | unary span op e => unary span op e :: e.nodes

/-- The expressions in a statement. -/
def Action.nodes : Action → List Expr
  | assign _ _ e | print _ e => e.nodes
  | missing | seq _ _ => []

theorem start_tokensSpan (t : Token) (ts : List Token) :
    (tokensSpan (t :: ts)).start = t.span.start := rfl

/-- Every node of an expression starts at one of its tokens. -/
theorem Reads.exists_start {ts : List Token} {e : Expr} (h : Reads ts e) :
    ∀ x ∈ e.nodes, ∃ t ∈ ts, x.span.start = t.span.start := by
  induction h with
  | var _ | const _ _ =>
    intro x hx
    rw [List.mem_singleton.mp hx]
    exact ⟨_, List.mem_singleton_self _, rfl⟩
  | @binary t _ ls rs l r _ _ _ ihl ihr =>
    intro x hx
    rcases List.mem_cons.mp hx with rfl | hx
    · exact ⟨t, List.mem_cons_self, start_tokensSpan t (ls ++ rs)⟩
    · rcases List.mem_append.mp hx with hx | hx
      · obtain ⟨u, hu, hstart⟩ := ihl x hx
        exact ⟨u, List.mem_cons_of_mem t (List.mem_append_left rs hu), hstart⟩
      · obtain ⟨u, hu, hstart⟩ := ihr x hx
        exact ⟨u, List.mem_cons_of_mem t (List.mem_append_right ls hu), hstart⟩
  | @unary t _ ts e _ _ ih =>
    intro x hx
    rcases List.mem_cons.mp hx with rfl | hx
    · exact ⟨t, List.mem_cons_self, start_tokensSpan t ts⟩
    · obtain ⟨u, hu, hstart⟩ := ih x hx
      exact ⟨u, List.mem_cons_of_mem t hu, hstart⟩

theorem ReadsStatement.exists_start {ts : List Token} {a : Action} (h : ReadsStatement ts a) :
    ∀ x ∈ a.nodes, ∃ t ∈ ts, x.span.start = t.span.start := by
  intro x hx
  cases h with
  | @assign m y ts e _ _ he =>
    obtain ⟨t, ht, hstart⟩ := he.exists_start x hx
    exact ⟨t, List.mem_cons_of_mem m (List.mem_cons_of_mem y ht), hstart⟩
  | @print m ts e _ he =>
    obtain ⟨t, ht, hstart⟩ := he.exists_start x hx
    exact ⟨t, List.mem_cons_of_mem m ht, hstart⟩

namespace ReadsProgram

variable {ts : List Token} {as : List Action}

theorem exists_start (h : ReadsProgram ts as) :
    ∀ a ∈ as, ∀ x ∈ a.nodes, ∃ t ∈ ts, x.span.start = t.span.start := by
  induction h with
  | nil => simp
  | @cons s ts a as hs _ ih =>
    intro b hb x hx
    rcases List.mem_cons.mp hb with rfl | hb
    · obtain ⟨t, ht, hstart⟩ := hs.exists_start x hx
      exact ⟨t, List.mem_append_left ts ht, hstart⟩
    · obtain ⟨t, ht, hstart⟩ := ih b hb x hx
      exact ⟨t, List.mem_append_right s ht, hstart⟩

/-- The nodes of a statement start before those of the statements after it. -/
theorem pairwise_nodes (h : ReadsProgram ts as)
    (hts : ts.Pairwise fun t u => t.span.StartsBefore u.span) :
    as.Pairwise fun a b => ∀ x ∈ a.nodes, ∀ y ∈ b.nodes, x.span.StartsBefore y.span := by
  induction h with
  | nil => exact .nil
  | cons hs hreads ih =>
    obtain ⟨-, htail, hcross⟩ := List.pairwise_append.mp hts
    refine List.pairwise_cons.mpr ⟨?_, ih htail⟩
    intro b hb x hx y hy
    -- both nodes start at tokens, and the tokens of the statement come first
    obtain ⟨t, ht, hxt⟩ := hs.exists_start x hx
    obtain ⟨u, hu, hyu⟩ := hreads.exists_start b hb y hy
    exact (hcross t ht u hu).of_start_eq hxt hyu

end ReadsProgram

/-- In a program that was read from a source, the nodes of different statements start at different
places. -/
theorem Program.pairwise_nodes {file source : Bytes} {p : Program}
    (h : ofSource file source = .ok p) :
    p.actions.Pairwise fun a b => ∀ x ∈ a.nodes, ∀ y ∈ b.nodes, x.span.StartsBefore y.span := by
  obtain ⟨ts, hts, hp⟩ := Result.bind_eq_ok.mp h
  exact (ofTokens_eq_ok.mp hp).2.pairwise_nodes (pairwise_startsBefore hts)

/-! ### Findings -/

theorem Failure.span_atSpan {span : Span} (h : span.isZero = false) (f : Fault) :
    (Failure.atSpan f span).span = some span := by
  rw [Failure.atSpan, Span.toOption, h]
  rfl

namespace Expr

/-- What is found in an operation: the findings of the operands, and perhaps one at the operation
itself. -/
theorem failures_check_binary (span : Span) (symbol : Bytes) (l r : Expr) (assigned : List Bytes) :
    ∃ own, ((binary span symbol l r).check assigned).failures
        = (l.check assigned).failures ++ (r.check assigned).failures ++ own ∧
      ∀ f ∈ own, ∃ g, f = .atSpan g span := by
  rw [check]
  split
  · exact ⟨_, rfl, fun f hf => ⟨_, List.mem_singleton.mp hf⟩⟩
  · refine ⟨[], ?_, by simp⟩
    rw [List.append_nil]
    split <;> rfl

theorem failures_check_unary (span : Span) (symbol : Bytes) (e : Expr) (assigned : List Bytes) :
    ∃ own, ((unary span symbol e).check assigned).failures = (e.check assigned).failures ++ own ∧
      ∀ f ∈ own, ∃ g, f = .atSpan g span := by
  have hnone : (e.check assigned).failures = (e.check assigned).failures ++ [] :=
    (List.append_nil _).symm
  rw [check]
  split
  · exact ⟨[], hnone, by simp⟩
  · split
    · exact ⟨[], hnone, by simp⟩
    · exact ⟨_, rfl, fun f hf => ⟨_, List.mem_singleton.mp hf⟩⟩

/-- What is found in an expression stands at one of its nodes. -/
theorem node_of_check {e : Expr} (h : e.IsPlaced) (assigned : List Bytes) :
    ∀ f ∈ (e.check assigned).failures, ∃ x ∈ e.nodes, f.span = some x.span := by
  induction e with
  | missing => exact h.elim
  | const span v => simp [check]
  | var span name =>
    intro f hf
    rw [check] at hf
    split at hf
    · cases hf
    · rw [List.mem_singleton.mp hf]
      exact ⟨_, List.mem_singleton_self _, Failure.span_atSpan h _⟩
  | binary span symbol l r ihl ihr =>
    obtain ⟨hspan, hl, hr⟩ := h
    obtain ⟨own, hfailures, hown⟩ := failures_check_binary span symbol l r assigned
    intro f hf
    rw [hfailures] at hf
    rcases List.mem_append.mp hf with hf | hf
    · rcases List.mem_append.mp hf with hf | hf
      · obtain ⟨x, hx, hplace⟩ := ihl hl f hf
        exact ⟨x, List.mem_cons_of_mem _ (List.mem_append_left _ hx), hplace⟩
      · obtain ⟨x, hx, hplace⟩ := ihr hr f hf
        exact ⟨x, List.mem_cons_of_mem _ (List.mem_append_right _ hx), hplace⟩
    · obtain ⟨g, rfl⟩ := hown f hf
      exact ⟨_, List.mem_cons_self, Failure.span_atSpan hspan g⟩
  | unary span symbol e ih =>
    obtain ⟨hspan, he⟩ := h
    obtain ⟨own, hfailures, hown⟩ := failures_check_unary span symbol e assigned
    intro f hf
    rw [hfailures] at hf
    rcases List.mem_append.mp hf with hf | hf
    · obtain ⟨x, hx, hplace⟩ := ih he f hf
      exact ⟨x, List.mem_cons_of_mem _ hx, hplace⟩
    · obtain ⟨g, rfl⟩ := hown f hf
      exact ⟨_, List.mem_cons_self, Failure.span_atSpan hspan g⟩

end Expr

namespace Action

theorem node_of_check {a : Action} (hwritten : a.IsWritten) (hplaced : a.IsPlaced)
    (assigned : List Bytes) :
    ∀ f ∈ (a.check assigned).1, ∃ x ∈ a.nodes, f.span = some x.span := by
  cases a with
  | missing | seq => exact hwritten.elim
  | assign span target e => exact Expr.node_of_check hplaced assigned
  | print span e => exact Expr.node_of_check hplaced assigned

/-- What is found in statements stands at a node of one of them. -/
theorem node_of_checkAll {as : List Action} (hwritten : ∀ a ∈ as, a.IsWritten)
    (hplaced : ∀ a ∈ as, a.IsPlaced) (assigned : List Bytes) :
    ∀ f ∈ (checkAll assigned as).1, ∃ a ∈ as, ∃ x ∈ a.nodes, f.span = some x.span := by
  induction as generalizing assigned with
  | nil => simp [checkAll]
  | cons a as ih =>
    obtain ⟨hwa, hwas⟩ := List.forall_mem_cons.mp hwritten
    obtain ⟨hpa, hpas⟩ := List.forall_mem_cons.mp hplaced
    intro f hf
    rcases List.mem_append.mp hf with hf | hf
    · exact ⟨a, List.mem_cons_self, node_of_check hwa hpa assigned f hf⟩
    · obtain ⟨b, hb, hnode⟩ := ih hwas hpas _ f hf
      exact ⟨b, List.mem_cons_of_mem a hb, hnode⟩

/-- Statements are checked in order: what is found in the first ones comes first. -/
theorem checkAll_append (assigned : List Bytes) (as bs : List Action) :
    (checkAll assigned (as ++ bs)).1
      = (checkAll assigned as).1 ++ (checkAll (checkAll assigned as).2 bs).1 := by
  induction as generalizing assigned with
  | nil => rfl
  | cons a as ih =>
    show (check assigned a).1 ++ (checkAll (check assigned a).2 (as ++ bs)).1 = _
    rw [ih, ← List.append_assoc]
    rfl

end Action

end Polish
