import Polish.Proofs.Kinds
import Polish.Proofs.Places

/-!
# Prefixes of programs

The reader cuts the tokens into statements before it reads any of them, and where a statement ends
too early it blames the token before the end. Still, what it blames is the earliest token that can
be blamed: everything before it can be carried on to a program, and it cannot.

To say of a list of words whether it can be carried on, it is enough to know what is due after it. A
word moves this by one step, whatever comes later.

* `Due`, `Due.next`, `Due.after`: what must come next, and how words move it.
* `Due.exists_completion`: whatever is due can be given.
* `Blames`: the failure is at the first token that may not come, or at the last one before a
  statement is cut short.
* `Clause.blames_of_read`, `Program.blames_of_ofTokens`: the reader blames the right token, in one
  statement and in a program.
* `accepted_iff_after`: a program is a list of words after which nothing is due.
-/

namespace Polish

/-! ### What is due -/

/-- What must come next in a list of words. -/
inductive Due where
  /-- A statement, or the end. -/
  | statement
  /-- The target of an assignment. -/
  | target
  /-- An expression, and `more` expressions after it. -/
  | operand (more : Nat)
deriving DecidableEq

namespace Due

/-- What is due once an expression is complete, if `more` were due after it. -/
def afterOperand : Nat → Due
  | 0 => statement
  | more + 1 => operand more

/-- What is due after a word; nothing if the word may not come. -/
def next (word : Bytes) : Due → Option Due
  | statement =>
    match classify word with
    | .assign => some target
    | .print => some (operand 0)
    | _ => none
  | target => if classify word = .ident then some (operand 0) else none
  | operand more =>
    match classify word with
    | .ident => some (afterOperand more)
    | .numeral => if (Decimal.readInt64? word).isSome then some (afterOperand more) else none
    | .binary _ => some (operand (more + 1))
    | .unary _ => some (operand more)
    | _ => none

/-- What is due after words; nothing if one of them may not come. -/
def after (d : Due) (words : List Bytes) : Option Due := words.foldlM (fun d w => d.next w) d

@[simp] theorem after_nil (d : Due) : d.after [] = some d := rfl

theorem after_cons (d : Due) (w : Bytes) (ws : List Bytes) :
    d.after (w :: ws) = (d.next w).bind (·.after ws) := by
  rw [after, List.foldlM_cons]
  rfl

theorem after_append (d : Due) (xs ys : List Bytes) :
    d.after (xs ++ ys) = (d.after xs).bind (·.after ys) := by
  rw [after, List.foldlM_append]
  rfl

/-- Whatever is due can be given: names for targets and zeros for expressions. -/
theorem exists_completion (d : Due) : ∃ more, d.after more = some .statement := by
  have hzero : ∀ n, (operand n).next "0" = some (afterOperand n) := fun n => rfl
  have hzeros : ∀ n, (operand n).after (List.replicate (n + 1) "0") = some .statement := by
    intro n
    induction n with
    | zero => rfl
    | succ n ih =>
      rw [List.replicate_succ, after_cons, hzero]
      exact ih
  cases d with
  | statement => exact ⟨[], rfl⟩
  | target => exact ⟨["a", "0"], rfl⟩
  | operand more => exact ⟨_, hzeros more⟩

/-- Inside a statement no marker may come. -/
theorem next_marker {d : Due} (hd : d ≠ statement) {t : Token} (ht : t.isMarker = true) :
    d.next t.text = none := by
  have hkind : classify t.text = .assign ∨ classify t.text = .print :=
    Token.isMarker_eq_true_iff.mp ht
  cases d with
  | statement => exact absurd rfl hd
  | target => rcases hkind with hkind | hkind <;> simp [next, hkind]
  | operand more => rcases hkind with hkind | hkind <;> simp [next, hkind]

/-- Between statements only a marker may come. -/
theorem next_unmarked {t : Token} (ht : t.isMarker = false) : statement.next t.text = none := by
  have hkind : t.kind = classify t.text := rfl
  cases hclass : classify t.text with
  | assign | print =>
    rw [Token.isMarker, hkind, hclass] at ht
    cases ht
  | ident | numeral | binary | unary | unknown => simp only [next, hclass]

end Due

/-! ### What is read leaves nothing due -/

/-- The tokens of an expression give one operand. -/
theorem Reads.after_texts {ts : List Token} {e : Expr} (h : Reads ts e) (more : Nat) :
    (Due.operand more).after (Token.texts ts) = some (.afterOperand more) := by
  induction h generalizing more with
  | @var t hkind =>
    have hnext : (Due.operand more).next t.text = some (.afterOperand more) := by
      have hclass : classify t.text = .ident := hkind
      simp [Due.next, hclass]
    show (Due.operand more).after [t.text] = _
    rw [Due.after_cons, hnext]
    rfl
  | @const t v hkind hvalue =>
    have hnext : (Due.operand more).next t.text = some (.afterOperand more) := by
      have hclass : classify t.text = .numeral := hkind
      simp [Due.next, hclass, hvalue]
    show (Due.operand more).after [t.text] = _
    rw [Due.after_cons, hnext]
    rfl
  | @binary t op ls rs l r hkind _ _ ihl ihr =>
    have hnext : (Due.operand more).next t.text = some (.operand (more + 1)) := by
      have hclass : classify t.text = .binary op := hkind
      simp [Due.next, hclass]
    show (Due.operand more).after (t.text :: Token.texts (ls ++ rs)) = _
    rw [Due.after_cons, hnext, Token.texts_append, Option.bind_some, Due.after_append, ihl]
    exact ihr more
  | @unary t op ts e hkind _ ih =>
    have hnext : (Due.operand more).next t.text = some (.operand more) := by
      have hclass : classify t.text = .unary op := hkind
      simp [Due.next, hclass]
    show (Due.operand more).after (t.text :: Token.texts ts) = _
    rw [Due.after_cons, hnext]
    exact ih more

theorem Due.next_assign {t : Token} (h : t.kind = .assign) : statement.next t.text = some target := by
  have hclass : classify t.text = .assign := h
  simp [next, hclass]

theorem Due.next_print {t : Token} (h : t.kind = .print) :
    statement.next t.text = some (operand 0) := by
  have hclass : classify t.text = .print := h
  simp [next, hclass]

theorem Due.next_target {t : Token} (h : t.kind = .ident) :
    target.next t.text = some (operand 0) := by
  have hclass : classify t.text = .ident := h
  simp [next, hclass]

theorem ReadsStatement.after_texts {ts : List Token} {a : Action} (h : ReadsStatement ts a) :
    Due.statement.after (Token.texts ts) = some .statement := by
  cases h with
  | @assign m x ts e hm hx he =>
    show Due.statement.after (m.text :: x.text :: Token.texts ts) = _
    rw [Due.after_cons, Due.next_assign hm, Option.bind_some, Due.after_cons, Due.next_target hx]
    exact he.after_texts 0
  | @print m ts e hm he =>
    show Due.statement.after (m.text :: Token.texts ts) = _
    rw [Due.after_cons, Due.next_print hm]
    exact he.after_texts 0

/-- After the tokens of a program the next statement is due. -/
theorem ReadsProgram.after_texts {ts : List Token} {as : List Action} (h : ReadsProgram ts as) :
    Due.statement.after (Token.texts ts) = some .statement := by
  induction h with
  | nil => rfl
  | cons hs _ ih =>
    rw [Token.texts_append, Due.after_append, hs.after_texts]
    exact ih

/-! ### Whom the reader blames -/

/-- The kinds of failure for a token that may not come. -/
def Code.isRefusal : Code → Bool
  | .unknownStmt | .unknownToken | .badTarget | .trailing => true
  | _ => false

/-- The failure blames the right one of these tokens, before which `d` is due: the first that may
not come, or the last of them if it leaves a statement cut short. -/
inductive Blames (d : Due) : List Token → Failure → Prop where
  | refused {front rest : List Token} {t : Token} {now : Due} {fault : Fault}
      (hfront : d.after (Token.texts front) = some now) (hnext : now.next t.text = none)
      (hcode : fault.code.isRefusal = true) (hvalue : fault.value? = some (.text t.text)) :
      Blames d (front ++ t :: rest) (.atSpan fault t.span)
  | truncated {front : List Token} {t : Token} {now : Due} {fault : Fault}
      (hfront : d.after (Token.texts (front ++ [t])) = some now) (hnow : now ≠ .statement)
      (hcode : fault.code = .truncated) (hvalue : fault.value? = some (.text t.text)) :
      Blames d (front ++ [t]) (.atSpan fault t.span)

namespace Blames

variable {d now : Due} {ts : List Token} {f : Failure}

/-- Tokens in front that may come change nothing. -/
theorem prepend {front : List Token} (hfront : d.after (Token.texts front) = some now)
    (h : Blames now ts f) : Blames d (front ++ ts) f := by
  have hafter : ∀ more, d.after (Token.texts (front ++ more)) = now.after (Token.texts more) := by
    intro more
    rw [Token.texts_append, Due.after_append, hfront]
    rfl
  cases h with
  | refused hmore hnext hcode hvalue =>
    rw [← List.append_assoc]
    exact .refused ((hafter _).trans hmore) hnext hcode hvalue
  | truncated hmore hnow hcode hvalue =>
    rw [← List.append_assoc]
    refine .truncated ?_ hnow hcode hvalue
    rw [List.append_assoc]
    exact (hafter _).trans hmore

end Blames

/-! ### One expression -/

/-- An operator before its left operand, which will need a second one. -/
def Pending.isLeft : Pending → Bool
  | left _ => true
  | operand _ | right _ _ => false

/-- How many expressions the waiting operators need after the next one. -/
def waiting (stack : List Pending) : Nat := stack.countP Pending.isLeft

/-- A finished operand is what the waiting operators needed next. -/
theorem supply_spec (last : Span) (e : Expr) (stack : List Pending) :
    Due.afterOperand (waiting stack) =
      match supply last e stack with
      | .inl _ => .statement
      | .inr stack => .operand (waiting stack) := by
  induction stack generalizing e with
  | nil => rfl
  | cons p stack ih =>
    cases p with
    | operand t => exact ih _
    | left t =>
      have hcount : waiting (.left t :: stack) = waiting stack + 1 := List.countP_cons_of_pos rfl
      rw [hcount]
      rfl
    | right t l => exact ih _

/-- What a token means inside an expression is what the next due says of it. -/
theorem leaf_spec (t : Token) (stack : List Pending) :
    match leaf t with
    | .ok (.inl _) =>
      (Due.operand (waiting stack)).next t.text = some (.afterOperand (waiting stack))
    | .ok (.inr op) =>
      (Due.operand (waiting stack)).next t.text = some (.operand (waiting (op :: stack)))
    | .error f => (Due.operand (waiting stack)).next t.text = none ∧
        ∃ fault, f = .atSpan fault t.span ∧ fault.code.isRefusal = true ∧
          fault.value? = some (.text t.text) := by
  have hkind : t.kind = classify t.text := rfl
  unfold leaf
  cases hclass : classify t.text with
  | ident => simp [hkind, hclass, Due.next]
  | numeral =>
    cases hvalue : Decimal.readInt64? t.text with
    | some v => simp [hkind, hclass, Due.next, hvalue]
    | none =>
      simp only [hkind, hclass, Due.next, hvalue]
      exact ⟨rfl, _, rfl, rfl, rfl⟩
  | binary op =>
    have hcount : waiting (.left t :: stack) = waiting stack + 1 := List.countP_cons_of_pos rfl
    simp [hkind, hclass, Due.next, hcount]
  | unary op =>
    have hcount : waiting (.operand t :: stack) = waiting stack := List.countP_cons_of_neg nofun
    simp [hkind, hclass, Due.next, hcount]
  | assign | print | unknown =>
    simp only [hkind, hclass, Due.next, true_and]
    exact ⟨_, rfl, rfl, rfl⟩

/-- A failing reader of expressions blames the first token that may not come, or the last one if
there is none. The induction is on the tokens; the operators that wait say what is due. -/
theorem blames_of_readExpr (stack : List Pending) {prev : Token} {ts : List Token} {f : Failure}
    {d : Due} {front : List Token}
    (hfront : d.after (Token.texts (front ++ [prev])) = some (.operand (waiting stack)))
    (h : readExpr stack prev ts = .error f) : Blames d (front ++ prev :: ts) f := by
  induction ts generalizing stack prev front with
  | nil =>
    cases h
    exact .truncated hfront nofun rfl rfl
  | cons t ts ih =>
    -- the next token is read with `prev` among the tokens in front
    have hmove : ∀ {now : Due}, (Due.operand (waiting stack)).next t.text = some now →
        d.after (Token.texts (front ++ [prev] ++ [t])) = some now := by
      intro now hnow
      rw [Token.texts_append, Due.after_append, hfront, Option.bind_some]
      show (Due.operand (waiting stack)).after [t.text] = _
      rw [Due.after_cons, hnow]
      rfl
    have hspec := leaf_spec t stack
    rw [List.append_cons]
    rw [readExpr] at h
    cases hleaf : leaf t with
    | error g =>
      rw [hleaf] at h hspec
      cases h
      obtain ⟨hnext, fault, rfl, hcode, hvalue⟩ := hspec
      exact .refused hfront hnext hcode hvalue
    | ok read =>
      rw [hleaf] at h hspec
      cases read with
      | inr op => exact ih _ (hmove hspec) h
      | inl e =>
        have hsupply := supply_spec t.span e stack
        dsimp only at h hspec
        cases hresult : supply t.span e stack with
        | inl whole =>
          rw [hresult] at h
          cases h
        | inr stack' =>
          rw [hresult] at h hsupply
          rw [hsupply] at hspec
          exact ih stack' (hmove hspec) h

/-! ### One statement -/

/-- The last part of a statement blames the right token. -/
theorem blames_of_readRest (front : List Token) {prev : Token} {ts : List Token}
    {build : Span → Expr → Action} {f : Failure}
    (hfront : Due.statement.after (Token.texts (front ++ [prev])) = some (.operand 0))
    (hunmarked : ∀ t ∈ ts, t.isMarker = false) (h : readRest prev ts build = .error f) :
    Blames .statement (front ++ prev :: ts) f := by
  cases hread : readExpr [] prev ts with
  | error g =>
    rw [readRest, hread] at h
    cases h
    exact blames_of_readExpr [] hfront hread
  | ok read =>
    obtain ⟨e, last, rest⟩ := read
    obtain ⟨used, rfl, he, -⟩ := readExpr_eq_ok.mp hread
    rw [readRest, hread] at h
    cases rest with
    | nil => cases h
    | cons extra rest =>
      cases h
      -- the statement is complete, and only a marker may follow it
      have hnext := Due.next_unmarked (hunmarked extra (by simp))
      have hused : Due.statement.after (Token.texts (front ++ [prev] ++ used))
          = some .statement := by
        rw [Token.texts_append, Due.after_append, hfront]
        exact he.after_texts 0
      have hsplit : front ++ prev :: (used ++ extra :: rest)
          = front ++ [prev] ++ used ++ extra :: rest := by simp
      rw [hsplit]
      exact .refused hused hnext rfl rfl

/-- **Statements.** A clause that is no statement is refused for the right token. -/
theorem Clause.blames_of_read {c : Clause} {f : Failure}
    (hunmarked : ∀ t ∈ c.rest, t.isMarker = false) (h : c.read = .error f) :
    Blames .statement c.toList f := by
  obtain ⟨first, rest⟩ := c
  cases hkind : first.kind with
  | print =>
    rw [read_print hkind] at h
    refine blames_of_readRest [] ?_ hunmarked h
    show Due.statement.after [first.text] = _
    rw [Due.after_cons, Due.next_print hkind]
    rfl
  | assign =>
    have hfirst : Due.statement.after [first.text] = some .target := by
      rw [Due.after_cons, Due.next_assign hkind]
      rfl
    cases rest with
    | nil =>
      simp only [read, hkind] at h
      cases h
      have hdue : Due.target ≠ .statement := by decide
      show Blames .statement ([] ++ [first]) _
      exact .truncated hfirst hdue rfl rfl
    | cons x ts =>
      by_cases hx : x.kind = .ident
      · rw [read_assign hkind hx] at h
        refine blames_of_readRest [first] ?_
          (fun t ht => hunmarked t (List.mem_cons_of_mem x ht)) h
        show Due.statement.after [first.text, x.text] = _
        rw [Due.after_cons, Due.next_assign hkind, Option.bind_some, Due.after_cons,
          Due.next_target hx]
        rfl
      · simp only [read, hkind, hx, if_false] at h
        cases h
        have hnext : Due.target.next x.text = none := if_neg hx
        show Blames .statement ([first] ++ x :: ts) _
        exact .refused hfirst hnext rfl rfl
  | ident | numeral | binary | unary | unknown =>
    simp only [read, hkind] at h
    cases h
    have hclass : classify first.text = _ := hkind
    have hnext : Due.statement.next first.text = none := by simp only [Due.next, hclass]
    show Blames .statement ([] ++ first :: rest) _
    exact .refused rfl hnext rfl rfl

/-! ### Whole programs -/

/-- Each clause holds no marker after its first token, and each but the first starts with one. -/
theorem splitStatements_unmarked (ts : List Token) :
    (∀ c ∈ splitStatements ts, ∀ t ∈ c.rest, t.isMarker = false) ∧
      ∀ c ∈ (splitStatements ts).tail, c.first.isMarker = true := by
  induction ts with
  | nil => exact ⟨by simp [splitStatements], by simp [splitStatements]⟩
  | cons t ts ih =>
    rw [splitStatements]
    cases hsplit : splitStatements ts with
    | nil => simp
    | cons c cs =>
      rw [hsplit] at ih
      obtain ⟨hrest, hfirst⟩ := ih
      obtain ⟨hc, hcs⟩ := List.forall_mem_cons.mp hrest
      dsimp only
      by_cases hmarker : c.first.isMarker = true
      · rw [if_pos hmarker]
        exact ⟨List.forall_mem_cons.mpr ⟨by simp, hrest⟩,
          List.forall_mem_cons.mpr ⟨hmarker, hfirst⟩⟩
      · -- the first token of the clause after `t` becomes one of its later tokens
        rw [if_neg hmarker]
        refine ⟨List.forall_mem_cons.mpr ⟨?_, hcs⟩, hfirst⟩
        exact List.forall_mem_cons.mpr ⟨Bool.eq_false_iff.mpr hmarker, hc⟩

/-- Clauses that start with markers are nothing, or tokens that start a statement. -/
theorem startsStatement_flatMap {cs : List Clause} (h : ∀ c ∈ cs, c.first.isMarker = true) :
    StartsStatement (cs.flatMap Clause.toList) := by
  cases cs with
  | nil => trivial
  | cons c cs => exact h c List.mem_cons_self

/-- **Programs.** Tokens that are no program begin with tokens for which the reader blames the right
one; after them comes a marker or nothing. -/
theorem Program.blames_of_ofTokens {ts : List Token} {f : Failure} (h : ofTokens ts = .error f) :
    ∃ used rest, ts = used ++ rest ∧ Blames .statement used f ∧ StartsStatement rest := by
  have hfails : (splitStatements ts).mapM Clause.read = .error f := by
    cases hread : (splitStatements ts).mapM Clause.read with
    | error g =>
      rw [ofTokens, hread] at h
      cases h
      rfl
    | ok as =>
      rw [ofTokens, hread] at h
      cases h
  obtain ⟨done, c, rest, as, hcut, hdone, hc⟩ := Result.exists_of_mapM_error hfails
  obtain ⟨hunmarked, hmarked⟩ := splitStatements_unmarked ts
  have hts := flatMap_splitStatements ts
  rw [hcut] at hunmarked hmarked hts
  refine ⟨done.flatMap Clause.toList ++ c.toList, rest.flatMap Clause.toList, ?_, ?_, ?_⟩
  · rw [← hts, List.flatMap_append, List.flatMap_cons, List.append_assoc]
  · refine .prepend (readsProgram_of_mapM hdone).after_texts ?_
    exact Clause.blames_of_read (hunmarked c (by simp)) hc
  · refine startsStatement_flatMap fun b hb => hmarked b ?_
    cases done with
    | nil => exact hb
    | cons first done =>
      show b ∈ done ++ c :: rest
      exact List.mem_append_right done (List.mem_cons_of_mem c hb)

/-! ### What can be carried on -/

/-- The words are read as a program. -/
def IsAccepted (words : List Bytes) : Prop := ∃ p, Program.ofTexts words = .ok p

/-- The words can be carried on to a program. -/
def IsViable (words : List Bytes) : Prop := ∃ more, IsAccepted (words ++ more)

/-- After tokens for which the reader blames one, a program does not end. -/
theorem Blames.after_ne {used rest : List Token} {f : Failure} (h : Blames .statement used f)
    (hrest : StartsStatement rest) :
    Due.statement.after (Token.texts (used ++ rest)) ≠ some .statement := by
  rw [Token.texts_append, Due.after_append]
  cases h with
  | @refused front after t now fault hfront hnext _ _ =>
    have hnone : Due.statement.after (Token.texts (front ++ t :: after)) = none := by
      rw [Token.texts_append, Due.after_append, hfront, Option.bind_some]
      show now.after (t.text :: Token.texts after) = _
      rw [Due.after_cons, hnext]
      rfl
    rw [hnone]
    nofun
  | @truncated front t now fault hfront hnow _ _ =>
    rw [hfront, Option.bind_some]
    cases rest with
    | nil =>
      intro hend
      exact hnow (Option.some.inj hend)
    | cons m rest =>
      show now.after (m.text :: Token.texts rest) ≠ _
      rw [Due.after_cons, Due.next_marker hnow hrest]
      nofun

/-- A list of words is a program exactly when the next statement is due after it. -/
theorem accepted_iff_after {words : List Bytes} :
    IsAccepted words ↔ Due.statement.after words = some .statement := by
  constructor
  · rintro ⟨p, hp⟩
    have hafter := (Program.ofTexts_eq_ok.mp hp).2.after_texts
    rwa [Token.texts_ofTexts] at hafter
  · intro hafter
    cases hread : Program.ofTexts words with
    | ok p => exact ⟨p, hread⟩
    | error f =>
      obtain ⟨used, rest, htokens, hblames, hrest⟩ := Program.blames_of_ofTokens hread
      have hne := hblames.after_ne hrest
      rw [← htokens, Token.texts_ofTexts] at hne
      exact absurd hafter hne

/-- Words can be carried on exactly when each of them may come. -/
theorem viable_iff_after {words : List Bytes} :
    IsViable words ↔ ∃ d, Due.statement.after words = some d := by
  constructor
  · rintro ⟨more, hmore⟩
    rw [accepted_iff_after, Due.after_append] at hmore
    obtain ⟨d, hd, -⟩ := Option.bind_eq_some_iff.mp hmore
    exact ⟨d, hd⟩
  · rintro ⟨d, hd⟩
    obtain ⟨more, hmore⟩ := d.exists_completion
    refine ⟨more, accepted_iff_after.mpr ?_⟩
    rw [Due.after_append, hd]
    exact hmore

/-- What the blame for a token says: the words before it can be carried on. If the token was
refused, they cannot be carried on with it; if a statement was cut short, they can, but they are no
program, and the tokens end there or a marker follows. -/
structure IsToBlame (ts : List Token) (i : Nat) (t : Token) (f : Failure) : Prop where
  token : ts[i]? = some t
  span : f.span = t.span.toOption
  value : f.fault.value? = some (.text t.text)
  before : IsViable (Token.texts (ts.take i))
  refused : f.code.isRefusal = true → ¬ IsViable (Token.texts (ts.take (i + 1)))
  truncated : f.code = .truncated → IsViable (Token.texts (ts.take (i + 1))) ∧
    ¬ IsAccepted (Token.texts (ts.take (i + 1))) ∧
    (i + 1 = ts.length ∨ ∃ m, ts[i + 1]? = some m ∧ m.isMarker = true)
  code : f.code.isRefusal = true ∨ f.code = .truncated

/-- The token that the reader blames is the right one. -/
theorem Blames.exists_isToBlame {used rest : List Token} {f : Failure}
    (h : Blames .statement used f) (hrest : StartsStatement rest) :
    ∃ i t, IsToBlame (used ++ rest) i t f := by
  cases h with
  | @refused front after t now fault hfront hnext hcode hvalue =>
    have hts : front ++ t :: after ++ rest = front ++ t :: (after ++ rest) := by simp
    have htake : (front ++ t :: (after ++ rest)).take (front.length + 1) = front ++ [t] := by
      rw [List.append_cons, ← List.length_singleton (a := t), ← List.length_append,
        List.take_left]
    rw [hts]
    refine ⟨front.length, t, ?_, rfl, hvalue, ?_, fun _ => ?_, ?_, .inl hcode⟩
    · simp
    · rw [List.take_left]
      exact viable_iff_after.mpr ⟨now, hfront⟩
    · rw [htake, viable_iff_after, Token.texts_append, Due.after_append, hfront]
      rintro ⟨d, hd⟩
      have hd : now.after [t.text] = some d := hd
      rw [Due.after_cons, hnext] at hd
      cases hd
    · intro htruncated
      have hcode : Code.isRefusal (Failure.atSpan fault t.span).code = true := hcode
      rw [htruncated] at hcode
      cases hcode
  | @truncated front t now fault hfront hnow hcode hvalue =>
    have htake : (front ++ [t] ++ rest).take (front.length + 1) = front ++ [t] := by
      rw [← List.length_singleton (a := t), ← List.length_append, List.take_left]
    refine ⟨front.length, t, ?_, rfl, hvalue, ?_, ?_, fun _ => ⟨?_, ?_, ?_⟩, .inr hcode⟩
    · simp
    · rw [List.append_assoc, List.take_left]
      obtain ⟨d, hd, -⟩ : ∃ d, Due.statement.after (Token.texts front) = some d ∧ _ := by
        rw [Token.texts_append, Due.after_append] at hfront
        exact Option.bind_eq_some_iff.mp hfront
      exact viable_iff_after.mpr ⟨d, hd⟩
    · intro hrefusal
      have hcode : (Failure.atSpan fault t.span).code = .truncated := hcode
      rw [hcode] at hrefusal
      cases hrefusal
    · rw [htake]
      exact viable_iff_after.mpr ⟨now, hfront⟩
    · rw [htake, accepted_iff_after, hfront]
      intro hend
      exact hnow (Option.some.inj hend)
    · cases rest with
      | nil => exact .inl (by simp)
      | cons m rest => exact .inr ⟨m, by simp, hrest⟩

/-- No two tokens of a source have the same place. -/
theorem eq_of_span_eq {file source : Bytes} {ts : List Token} (h : tokenize file source = .ok ts)
    {i j : Nat} {t u : Token} (ht : ts[i]? = some t) (hu : ts[j]? = some u)
    (hspan : t.span = u.span) : i = j := by
  have horder := List.pairwise_iff_getElem.mp (pairwise_startsBefore h)
  obtain ⟨hi, rfl⟩ := List.getElem?_eq_some_iff.mp ht
  obtain ⟨hj, rfl⟩ := List.getElem?_eq_some_iff.mp hu
  rcases Nat.lt_trichotomy i j with hlt | heq | hlt
  · exact absurd (congrArg Span.start hspan) (horder i j hi hj hlt).start_ne
  · exact heq
  · exact absurd (congrArg Span.start hspan).symm (horder j i hj hi hlt).start_ne

/-- **Reading fails at the first token that cannot be right.** Let a source have tokens that are no
program. Exactly one of them has the place of the failure, and its text is the offending value. The
words before it can be carried on to a program. If the failure is an unknown statement, an unknown
token, a bad target or a trailing token, then no program starts with these words and that token. If
a statement is cut short, then some program does, but these words are no program themselves, and the
token is the last one or a marker follows it. The failure is always one of these five. -/
theorem reading_fails_at_first_bad_token {file source : Bytes} {ts : List Token} {f : Failure}
    (hts : tokenize file source = .ok ts) (hf : Program.ofSource file source = .error f) :
    ∃ i t, ts[i]? = some t ∧ f.span = some t.span ∧
      (∀ j u, ts[j]? = some u → f.span = some u.span → j = i) ∧
      f.fault.value? = some (.text t.text) ∧
      (∃ more p, Program.ofTexts (Token.texts (ts.take i) ++ more) = .ok p) ∧
      (f.code ∈ [.unknownStmt, .unknownToken, .badTarget, .trailing] →
        ¬ ∃ more p, Program.ofTexts (Token.texts (ts.take (i + 1)) ++ more) = .ok p) ∧
      (f.code = .truncated →
        (∃ more p, Program.ofTexts (Token.texts (ts.take (i + 1)) ++ more) = .ok p) ∧
        (¬ ∃ p, Program.ofTexts (Token.texts (ts.take (i + 1))) = .ok p) ∧
        (i + 1 = ts.length ∨
          ∃ m, ts[i + 1]? = some m ∧ (m.text = assignMarker ∨ m.text = printMarker))) ∧
      f.code ∈ [.unknownStmt, .unknownToken, .badTarget, .trailing, .truncated] := by
  have hread : Program.ofTokens ts = .error f := by
    rw [Program.ofSource, hts] at hf
    exact hf
  obtain ⟨used, rest, rfl, hblames, hrest⟩ := Program.blames_of_ofTokens hread
  obtain ⟨i, t, hblame⟩ := hblames.exists_isToBlame hrest
  have hplace : f.span = some t.span := by
    have hproper := isProper_of_mem_tokenize hts t (List.mem_of_getElem? hblame.token)
    have hzero : t.span.isZero = false := hproper.isZero_tokensSpan []
    rw [hblame.span, Span.toOption, hzero]
    rfl
  have hrefusal : f.code.isRefusal = true ↔
      f.code ∈ [.unknownStmt, .unknownToken, .badTarget, .trailing] := by
    cases f.code <;> decide
  refine ⟨i, t, hblame.token, hplace, ?_, hblame.value, hblame.before,
    fun hcode => hblame.refused (hrefusal.mpr hcode), fun hcode => ?_, ?_⟩
  · intro j u hu hspan
    rw [hplace] at hspan
    exact (eq_of_span_eq hts hblame.token hu (Option.some.inj hspan)).symm
  · obtain ⟨hviable, hopen, hend⟩ := hblame.truncated hcode
    refine ⟨hviable, hopen, hend.imp_right ?_⟩
    rintro ⟨m, hm, hmarker⟩
    exact ⟨m, hm, (Token.isMarker_eq_true_iff.mp hmarker).imp Token.describes_kind
      Token.describes_kind⟩
  · rcases hblame.code with hcode | hcode
    · exact List.mem_append_left [.truncated] (hrefusal.mp hcode)
    · simp [hcode]

/-- A statement that a marker cuts short, before a second mistake that is not reported; and a token
after a complete statement, with which no program starts. -/
theorem reading_fails_at_first_bad_token_cut :
    let cut : Bytes := ":= a + 1 ; one more\n@ a b"
    let trailing : Bytes := "@ a b"
    let short : List Bytes := [":=", "a", "+", "1"]
    let long : List Bytes := ["@", "a", "b"]
    ((Program.ofSource "f" cut).mapError fun f => (f.code, f.span))
        = .error (.truncated, some ⟨"f", 1, 8, 1, 9⟩) ∧
      (∃ more p, Program.ofTexts (short ++ more) = .ok p) ∧
      (¬ ∃ p, Program.ofTexts short = .ok p) ∧
      ((Program.ofSource "f" trailing).mapError fun f => (f.code, f.span))
        = .error (.trailing, some ⟨"f", 1, 5, 1, 6⟩) ∧
      ¬ ∃ more p, Program.ofTexts (long ++ more) = .ok p := by
  intro cut trailing short long
  have hcut : tokenize "f" cut = .ok _ := rfl
  have htrailing : tokenize "f" trailing = .ok _ := rfl
  obtain ⟨i, t, -, -, hi, -, -, -, htruncated, -⟩ := reading_fails_at_first_bad_token hcut rfl
  obtain ⟨j, u, -, -, hj, -, -, hrefused, -⟩ := reading_fails_at_first_bad_token htrailing rfl
  obtain rfl : 3 = i := hi 3 _ rfl rfl
  obtain rfl : 2 = j := hj 2 _ rfl rfl
  obtain ⟨hviable, hopen, -⟩ := htruncated rfl
  exact ⟨rfl, hviable, hopen, rfl, hrefused (by decide)⟩

end Polish
