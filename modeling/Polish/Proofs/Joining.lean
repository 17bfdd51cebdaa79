import Mathlib.Data.List.Forall2
import Polish.Proofs.Grammar
import Polish.Proofs.Places

/-!
# Sources put together

A line feed separates words and ends a comment. So the words of sources that are joined by line
feeds are the words of the one after those of the other, whatever the sources hold. The reader cuts
words into statements before each marker, and hence reads the joined source as the statements of the
one after those of the other. Places change, and nothing else.

* `sourceTexts`: the words of a source without their places.
* `sourceTexts_join`: the words of joined sources.
* `ReadsProgram.respell`: tokens with the same texts spell the same statements, apart from places.
* `Spells`: the words are those of a source that is read as these statements.
* `Program.exists_ofSource_join`: joined sources are read as their statements one after the other.
-/

namespace Polish

/-! ### The words of joined sources -/

/-- The words of a line, without their places. -/
def lineTexts (line : Bytes) : List Bytes :=
  ((codePart line).splitOnP isLineBlank).filter fun piece => !piece.isEmpty

/-- The words of a source, without their places. -/
def sourceTexts (source : Bytes) : List Bytes := source.lines.flatMap lineTexts

theorem filter_withOffsets (offset : Nat) (pieces : List Bytes) :
    ((withOffsets offset pieces).filter fun piece => !piece.2.isEmpty).map Prod.snd
      = pieces.filter fun piece => !piece.isEmpty := by
  induction pieces generalizing offset with
  | nil => rfl
  | cons piece rest ih =>
    rw [withOffsets, List.filter_cons, List.filter_cons, ← ih (offset + piece.length + 1)]
    split <;> rfl

theorem map_text_lineWords (number : Nat) (line : Bytes) :
    (lineWords number line).map PlacedWord.text = lineTexts line := by
  rw [lineWords, wordsAfter, List.map_map, lineTexts, ← filter_withOffsets 0]
  rfl

theorem map_text_sourceWords (source : Bytes) :
    (sourceWords source).map PlacedWord.text = sourceTexts source := by
  rw [sourceWords, List.map_flatMap, sourceTexts]
  simp only [map_text_lineWords]
  rw [← List.flatMap_map Prod.fst lineTexts, List.zipIdx_map_fst]

theorem Bytes.lines_join (first second : Bytes) :
    lines (first ++ "\n" ++ second) = first.lines ++ second.lines := by
  rw [List.append_assoc]
  exact List.splitOn_append_cons_self first second

/-- A line feed separates words, also in a comment. -/
theorem sourceTexts_append (first second : Bytes) :
    sourceTexts (first ++ "\n" ++ second) = sourceTexts first ++ sourceTexts second := by
  rw [sourceTexts, Bytes.lines_join, List.flatMap_append, sourceTexts, sourceTexts]

theorem sourceTexts_join (parts : List Bytes) :
    sourceTexts (Bytes.join "\n" parts) = parts.flatMap sourceTexts := by
  rw [Bytes.join]
  induction parts with
  | nil => rfl
  | cons part parts ih =>
    cases parts with
    | nil => rw [List.intercalate_singleton, List.flatMap_singleton]
    | cons next parts =>
      rw [List.intercalate_cons_cons, sourceTexts_append, ih, ← List.flatMap_cons]

/-- The tokens of a source have the texts of its words. -/
theorem texts_of_tokenize {file source : Bytes} {ts : List Token}
    (h : tokenize file source = .ok ts) :
    Token.texts ts = sourceTexts source ∧ ∀ w ∈ sourceTexts source, w.isWellFormed = true := by
  obtain ⟨hformed, rfl⟩ := tokenize_eq_ok h
  rw [← map_text_sourceWords, Token.texts, List.map_map]
  exact ⟨rfl, List.forall_mem_map.mpr hformed⟩

/-- A source whose words are all well-formed has tokens. -/
theorem exists_tokenize {source : Bytes} (h : ∀ w ∈ sourceTexts source, w.isWellFormed = true)
    (file : Bytes) : ∃ ts, tokenize file source = .ok ts := by
  rw [← map_text_sourceWords, List.forall_mem_map] at h
  have hnone : (sourceWords source).find? PlacedWord.isMalformed = none := by
    rw [List.find?_eq_none]
    intro w hw
    rw [PlacedWord.isMalformed, h w hw]
    decide
  exact ⟨_, (tokenize_eq_readTokens file source).trans (readTokens_of_none hnone)⟩

/-! ### Tokens with the same texts -/

theorem Token.kind_eq {t u : Token} (h : u.text = t.text) : u.kind = t.kind := by
  rw [kind, h, kind]

theorem Token.texts_eq_cons {us ts : List Token} {t : Token} (h : texts us = texts (t :: ts)) :
    ∃ u us', us = u :: us' ∧ u.text = t.text ∧ texts us' = texts ts :=
  List.map_eq_cons_iff.mp h

theorem Token.texts_eq_append {us xs ys : List Token} (h : texts us = texts (xs ++ ys)) :
    ∃ xs' ys', us = xs' ++ ys' ∧ texts xs' = texts xs ∧ texts ys' = texts ys := by
  rw [texts_append] at h
  exact List.map_eq_append_iff.mp h

/-- Tokens with the same texts spell the same expression, apart from places. -/
theorem Reads.respell {ts us : List Token} {e : Expr} (h : Reads ts e)
    (htexts : Token.texts us = Token.texts ts) : ∃ e', Reads us e' ∧ e'.erase = e.erase := by
  induction h generalizing us with
  | var hkind =>
    obtain ⟨u, us, rfl, hu, hnil⟩ := Token.texts_eq_cons htexts
    obtain rfl : us = [] := List.map_eq_nil_iff.mp hnil
    refine ⟨_, .var ((Token.kind_eq hu).trans hkind), ?_⟩
    rw [Expr.erase, hu, Expr.erase]
  | const hkind hvalue =>
    obtain ⟨u, us, rfl, hu, hnil⟩ := Token.texts_eq_cons htexts
    obtain rfl : us = [] := List.map_eq_nil_iff.mp hnil
    rw [← hu] at hvalue
    exact ⟨_, .const ((Token.kind_eq hu).trans hkind) hvalue, rfl⟩
  | binary hkind _ _ ihl ihr =>
    obtain ⟨u, us, rfl, hu, hrest⟩ := Token.texts_eq_cons htexts
    obtain ⟨ls, rs, rfl, hls, hrs⟩ := Token.texts_eq_append hrest
    obtain ⟨l, hl, hel⟩ := ihl hls
    obtain ⟨r, hr, her⟩ := ihr hrs
    refine ⟨_, .binary ((Token.kind_eq hu).trans hkind) hl hr, ?_⟩
    rw [Expr.erase, hu, hel, her, Expr.erase]
  | unary hkind _ ih =>
    obtain ⟨u, us, rfl, hu, hrest⟩ := Token.texts_eq_cons htexts
    obtain ⟨e, he, hee⟩ := ih hrest
    refine ⟨_, .unary ((Token.kind_eq hu).trans hkind) he, ?_⟩
    rw [Expr.erase, hu, hee, Expr.erase]

theorem ReadsStatement.respell {ts us : List Token} {a : Action} (h : ReadsStatement ts a)
    (htexts : Token.texts us = Token.texts ts) :
    ∃ a', ReadsStatement us a' ∧ a'.erase = a.erase := by
  cases h with
  | assign hm hx he =>
    obtain ⟨m, us, rfl, hm', hrest⟩ := Token.texts_eq_cons htexts
    obtain ⟨x, us, rfl, hx', hrest⟩ := Token.texts_eq_cons hrest
    obtain ⟨e, he, hee⟩ := he.respell hrest
    refine ⟨_, .assign ((Token.kind_eq hm').trans hm) ((Token.kind_eq hx').trans hx) he, ?_⟩
    rw [Action.erase, hx', hee, Action.erase]
  | print hm he =>
    obtain ⟨m, us, rfl, hm', hrest⟩ := Token.texts_eq_cons htexts
    obtain ⟨e, he, hee⟩ := he.respell hrest
    refine ⟨_, .print ((Token.kind_eq hm').trans hm) he, ?_⟩
    rw [Action.erase, hee, Action.erase]

namespace ReadsProgram

variable {ts us : List Token} {as bs : List Action}

/-- Tokens with the same texts spell the same statements, apart from places. -/
theorem respell (h : ReadsProgram ts as) (htexts : Token.texts us = Token.texts ts) :
    ∃ as', ReadsProgram us as' ∧ Action.eraseAll as' = Action.eraseAll as := by
  induction h generalizing us with
  | nil =>
    obtain rfl : us = [] := List.map_eq_nil_iff.mp htexts
    exact ⟨[], .nil, rfl⟩
  | cons hs _ ih =>
    obtain ⟨xs, ys, rfl, hxs, hys⟩ := Token.texts_eq_append htexts
    obtain ⟨a, ha, hea⟩ := hs.respell hxs
    obtain ⟨as, has, heas⟩ := ih hys
    refine ⟨a :: as, .cons ha has, ?_⟩
    rw [Action.eraseAll, hea, heas, Action.eraseAll]

theorem append (h : ReadsProgram ts as) (h' : ReadsProgram us bs) :
    ReadsProgram (ts ++ us) (as ++ bs) := by
  induction h with
  | nil => exact h'
  | cons hs _ ih =>
    rw [List.append_assoc, List.cons_append]
    exact .cons hs ih

end ReadsProgram

/-! ### Joined sources -/

/-- The words are those of a source that is read as these statements. -/
structure Spells (words : List Bytes) (as : List Action) : Prop where
  wellFormed : ∀ w ∈ words, w.isWellFormed = true
  reads : ∃ ts, Token.texts ts = words ∧ ReadsProgram ts as

namespace Spells

theorem append {xs ys : List Bytes} {as bs : List Action} (h : Spells xs as) (h' : Spells ys bs) :
    Spells (xs ++ ys) (as ++ bs) := by
  obtain ⟨ts, rfl, hts⟩ := h.reads
  obtain ⟨us, rfl, hus⟩ := h'.reads
  exact ⟨List.forall_mem_append.mpr ⟨h.wellFormed, h'.wellFormed⟩, ts ++ us,
    Token.texts_append ts us, hts.append hus⟩

theorem of_source {file source : Bytes} {p : Program} (h : Program.ofSource file source = .ok p) :
    Spells (sourceTexts source) p.actions := by
  obtain ⟨ts, hts, hp⟩ := Result.bind_eq_ok.mp h
  obtain ⟨htexts, hformed⟩ := texts_of_tokenize hts
  exact ⟨hformed, ts, htexts, (Program.ofTokens_eq_ok.mp hp).2⟩

/-- A source is read by its words alone, under every file name. -/
theorem exists_ofSource {source : Bytes} {as : List Action} (h : Spells (sourceTexts source) as)
    (file : Bytes) :
    ∃ p, Program.ofSource file source = .ok p ∧
      Action.eraseAll p.actions = Action.eraseAll as := by
  obtain ⟨ts, htexts, hreads⟩ := h.reads
  obtain ⟨us, hus⟩ := exists_tokenize h.wellFormed file
  obtain ⟨as', has', herase⟩ := hreads.respell ((texts_of_tokenize hus).1.trans htexts.symm)
  exact ⟨⟨tokensSpan us, as'⟩,
    Result.bind_eq_ok.mpr ⟨us, hus, Program.ofTokens_eq_ok.mpr ⟨rfl, has'⟩⟩, herase⟩

end Spells

/-- **Joined sources.** Sources that are read, joined by line feeds, are read as their statements
one after the other, apart from places. -/
theorem Program.exists_ofSource_join {file : Bytes} {parts : List Bytes} {ps : List Program}
    (h : List.Forall₂ (fun part p => ofSource file part = .ok p) parts ps) (file' : Bytes) :
    ∃ p, ofSource file' (Bytes.join "\n" parts) = .ok p ∧
      Action.eraseAll p.actions = Action.eraseAll (ps.flatMap actions) := by
  have hspells : Spells (parts.flatMap sourceTexts) (ps.flatMap actions) := by
    induction h with
    | nil => exact ⟨by simp, [], rfl, .nil⟩
    | cons hpart _ ih =>
      rw [List.flatMap_cons, List.flatMap_cons]
      exact (Spells.of_source hpart).append ih
  rw [← sourceTexts_join] at hspells
  exact hspells.exists_ofSource file'

end Polish
