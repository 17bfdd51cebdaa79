import Polish.Diagnostic.Render

/-!
# Diagnostics for humans, once as a text and once as lines

The text form of diagnostics is put together in two ways: as one string with blank lines between
diagnostics, and as the lines that a printer writes, with a blank line before each diagnostic but
the first. Both are a layout of the same passages, of which the printer may paint some. The passages
that are painted are the code, the place and the word before the hint, whatever the diagnostics
hold.

* `Passage`: a text that may have a colour, and how it is shown.
* `Diagnostic.passages`, `Diagnostic.layout`: the passages of one diagnostic, and of several.
* `Diagnostic.highlights`: what is painted of a diagnostic.
* `Diagnostic.pretty_eq`, `Printer.block_eq`: both forms of one diagnostic are made of its passages.
* `Printer.renderings_agree`: both forms of several diagnostics.
-/

namespace Polish

/-- A text with its colour, if it has one. -/
structure Passage where
  text : Bytes
  colour : Option Bytes
deriving DecidableEq, Repr

namespace Passage

/-- A text without a colour. -/
def plain (text : Bytes) : Passage := ⟨text, none⟩

/-- The text, between the escape sequences of its colour if colours are wanted. -/
def shown (colored : Bool) (x : Passage) : Bytes :=
  match x.colour with
  | some colour => if colored then "\x1b[" ++ colour ++ "m" ++ x.text ++ "\x1b[0m" else x.text
  | none => x.text

@[simp] theorem shown_plain (colored : Bool) (text : Bytes) :
    (plain text).shown colored = text := rfl

@[simp] theorem shown_painted (p : Printer) (text colour : Bytes) :
    (Passage.mk text (some colour)).shown p.colored = p.paint colour text := rfl

@[simp] theorem shown_false (x : Passage) : x.shown false = x.text := by
  rw [shown]
  cases x.colour <;> rfl

end Passage

namespace Diagnostic

/-! ### Passages -/

/-- The code of a diagnostic, which is red. -/
def codePassage (d : Diagnostic) : Passage := ⟨"error[" ++ d.code ++ "]", some "31;1"⟩

/-- The start of a range, which is cyan. -/
def placePassage (s : Span) : Passage := ⟨s.place, some "36"⟩

/-- The word before a hint, which is yellow. -/
def hintPassage : Passage := ⟨"hint:", some "33"⟩

/-- What is painted of a diagnostic. -/
def highlights (d : Diagnostic) : List Passage :=
  d.codePassage :: (d.span.toList.map placePassage ++ d.hint?.toList.map fun _ => hintPassage)

/-- The offending value, if there is one. -/
def valuePassages (d : Diagnostic) : List Passage :=
  d.value?.toList.map fun v => .plain (" (" ++ v.render ++ ")")

/-- The line of the place, if there is one. -/
def placePassages (d : Diagnostic) : List Passage :=
  d.span.toList.flatMap fun s => [.plain "\n  --> ", placePassage s]

/-- The line of the hint, if there is one. -/
def hintPassages (d : Diagnostic) : List Passage :=
  d.hint?.toList.flatMap fun h => [.plain "\n  ", hintPassage, .plain (" " ++ h)]

/-- The passages of a diagnostic. -/
def passages (d : Diagnostic) : List Passage :=
  d.codePassage :: .plain (": " ++ d.message)
    :: (d.valuePassages ++ d.placePassages ++ d.hintPassages)

/-- The passages of diagnostics: a blank line between neighbours, a line end after the last one. -/
def layout (ds : List Diagnostic) : List Passage :=
  [Passage.plain "\n\n"].intercalate (ds.map passages) ++ [.plain "\n"]

theorem layout_singleton (d : Diagnostic) : layout [d] = d.passages ++ [.plain "\n"] := by
  rw [layout, List.map_singleton, List.intercalate_singleton]

theorem layout_cons_cons (d e : Diagnostic) (ds : List Diagnostic) :
    layout (d :: e :: ds) = d.passages ++ .plain "\n\n" :: layout (e :: ds) := by
  rw [layout, layout, List.map_cons, List.map_cons, List.intercalate_cons_cons, List.append_assoc,
    List.append_assoc]
  rfl

/-- The text of a diagnostic is made of its passages. -/
theorem pretty_eq (d : Diagnostic) : d.pretty = d.passages.flatMap (Passage.shown false) := by
  have hclose : ("]: " : Bytes) = ("]" : Bytes) ++ (": " : Bytes) := rfl
  have hword : ("\n  hint: " : Bytes)
      = ("\n  " : Bytes) ++ ("hint:" : Bytes) ++ (" " : Bytes) := rfl
  obtain ⟨code, message, value, span, hint⟩ := d
  rw [pretty, passages, valuePassages, placePassages, hintPassages, hint?]
  cases value <;> cases span <;> cases hint <;>
    simp [codePassage, placePassage, hintPassage, hclose, hword]

theorem prettyAll_eq {ds : List Diagnostic} (h : ds ≠ []) :
    prettyAll ds ++ "\n" = (layout ds).flatMap (Passage.shown false) := by
  induction ds with
  | nil => exact absurd rfl h
  | cons d ds ih =>
    cases ds with
    | nil =>
      rw [layout_singleton, List.flatMap_append, ← pretty_eq, prettyAll, Bytes.join,
        List.map_singleton, List.intercalate_singleton]
      rfl
    | cons e ds =>
      have hjoin : prettyAll (d :: e :: ds) = d.pretty ++ "\n\n" ++ prettyAll (e :: ds) :=
        List.intercalate_cons_cons ..
      rw [hjoin, List.append_assoc, ih (List.cons_ne_nil e ds), layout_cons_cons,
        List.flatMap_append, List.flatMap_cons, ← pretty_eq, List.append_assoc]
      rfl

theorem filter_passages (d : Diagnostic) :
    d.passages.filter (·.colour.isSome) = d.highlights := by
  have hvalue : d.valuePassages.filter (·.colour.isSome) = [] := by
    rw [valuePassages]
    cases d.value? <;> rfl
  have hplace : d.placePassages.filter (·.colour.isSome) = d.span.toList.map placePassage := by
    rw [placePassages]
    cases d.span <;> rfl
  have hhint : d.hintPassages.filter (·.colour.isSome)
      = d.hint?.toList.map fun _ => hintPassage := by
    rw [hintPassages]
    cases d.hint? <;> rfl
  have hrest : (d.valuePassages ++ d.placePassages ++ d.hintPassages).filter (·.colour.isSome)
      = d.span.toList.map placePassage ++ d.hint?.toList.map fun _ => hintPassage := by
    rw [List.filter_append, List.filter_append, hvalue, hplace, hhint, List.nil_append]
  rw [highlights, ← hrest]
  rfl

/-- The passages with a colour are those that are meant to be painted. -/
theorem filter_layout {ds : List Diagnostic} :
    (layout ds).filter (·.colour.isSome) = ds.flatMap highlights := by
  induction ds with
  | nil => rfl
  | cons d ds ih =>
    cases ds with
    | nil =>
      rw [layout_singleton, List.filter_append, filter_passages, List.flatMap_singleton]
      exact List.append_nil _
    | cons e ds =>
      rw [layout_cons_cons, List.filter_append, filter_passages, List.flatMap_cons, ← ih]
      rfl

end Diagnostic

namespace Printer

open Diagnostic

/-- The lines of a diagnostic are made of its passages. The line ends stand after the lines here,
and before all but the first there. -/
theorem block_eq (p : Printer) (d : Diagnostic) :
    p.block d = d.passages.flatMap (Passage.shown p.colored) ++ "\n" := by
  have hplace : ("\n  --> " : Bytes) = ("\n" : Bytes) ++ ("  --> " : Bytes) := rfl
  have hhint : ("\n  " : Bytes) = ("\n" : Bytes) ++ ("  " : Bytes) := rfl
  obtain ⟨code, message, value, span, hint⟩ := d
  rw [block, passages, valuePassages, placePassages, hintPassages, hint?]
  cases value <;> cases span <;> cases hint <;>
    simp [codePassage, placePassage, hintPassage, hplace, hhint]

theorem blocks_eq (p : Printer) {ds : List Diagnostic} (h : ds ≠ []) :
    p.blocks ds = (layout ds).flatMap (Passage.shown p.colored) := by
  induction ds with
  | nil => exact absurd rfl h
  | cons d ds ih =>
    cases ds with
    | nil =>
      rw [layout_singleton, List.flatMap_append, blocks, block_eq]
      exact List.append_nil _
    | cons e ds =>
      have hblocks : p.blocks (d :: e :: ds)
          = p.block d ++ Bytes.newline :: p.blocks (e :: ds) := by
        rw [blocks, blocks, List.flatMap_cons, List.cons_append]
      rw [hblocks, block_eq, ih (List.cons_ne_nil e ds), layout_cons_cons, List.flatMap_append,
        List.flatMap_cons, List.append_assoc]
      rfl

/-- **The two renderings agree.** What a printer without colours writes for some diagnostics is
their text and a line end. A printer with colours writes the same passages, of which the codes, the
places and the words before the hints stand between the escape sequences of their colours. -/
theorem renderings_agree {ds : List Diagnostic} (h : ds ≠ []) :
    print ⟨true, false⟩ ds = prettyAll ds ++ "\n" ∧
      prettyAll ds ++ "\n" = (layout ds).flatMap Passage.text ∧
      print ⟨true, true⟩ ds = (layout ds).flatMap (Passage.shown true) ∧
      (layout ds).filter (·.colour.isSome) = ds.flatMap highlights := by
  have htext : (layout ds).flatMap (Passage.shown false) = (layout ds).flatMap Passage.text :=
    congrArg (List.flatMap · (layout ds)) (funext Passage.shown_false)
  refine ⟨?_, (prettyAll_eq h).trans htext, blocks_eq ⟨true, true⟩ h, filter_layout⟩
  rw [prettyAll_eq h]
  exact blocks_eq ⟨true, false⟩ h

/-- A diagnostic with a code alone, and one with all its parts, whose message looks like a hint. -/
theorem renderings_agree_mixed :
    let bare : Diagnostic := ⟨"E_IO", [], none, none, []⟩
    let full : Diagnostic :=
      ⟨"E_LEX", "a\n  hint: b", some (.number 7), some ⟨"f", 1, 2, 1, 3⟩, "h"⟩
    let text : Bytes := "error[E_IO]: \n\nerror[E_LEX]: a\n  hint: b (7)\n  --> f:1:2\n  hint: h\n"
    let painted : Bytes := "\x1b[31;1merror[E_IO]\x1b[0m: \n\n\x1b[31;1merror[E_LEX]\x1b[0m: a\n"
      ++ "  hint: b (7)\n  --> \x1b[36mf:1:2\x1b[0m\n  \x1b[33mhint:\x1b[0m h\n"
    [bare, full] ≠ [] ∧ print ⟨true, false⟩ [bare, full] = text ∧
      print ⟨true, true⟩ [bare, full] = painted := by
  intro bare full text painted
  have hds : [bare, full] ≠ [] := List.cons_ne_nil _ _
  obtain ⟨hplain, -, hcolored, -⟩ := renderings_agree hds
  exact ⟨hds, hplain.trans (by decide +kernel), hcolored.trans (by decide +kernel)⟩

end Printer

end Polish
