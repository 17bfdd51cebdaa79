import Polish.Proofs.JsonText
import Polish.Proofs.Listing
import Polish.Trace.Summary

/-!
# A written trace is read event by event

A trace is written one line an event, and read back line by line. A line is a JSON object, so it
starts and ends with a brace: nothing is trimmed from it, and it holds no line feed. Reading gives
back the kind of the event and its details. Texts come back well-formed, and the place is looked at
only to see that it is one, for which its numbers must fit in 64 bits.

* `Span.Fits`: the numbers of a place fit in 64 bits.
* `Event.entry`, `Event.ofJson?_readMembers`: an event as it is read.
* `IsEntryLine`, `Event.isEntryLine`: the line of an event is read as the event.
* `Summary.ofText_events`: a trace is read as its events, one after the other.
-/

namespace Polish

/-! ### Places -/

/-- The numbers of the place fit in 64 bits. -/
structure Span.Fits (s : Span) : Prop where
  startLine : Decimal.fitsInt64 s.startLine = true
  startCol : Decimal.fitsInt64 s.startCol = true
  endLine : Decimal.fitsInt64 s.endLine = true
  endCol : Decimal.fitsInt64 s.endCol = true

theorem Decimal.readInt64?_ofInt {n : Int} (h : fitsInt64 n = true) :
    readInt64? (ofInt n) = some (Int64.ofInt n) := by
  rw [readInt64?, readInt?_ofInt, Option.bind_some, if_pos h]

theorem TraceEntry.isCount_int {n : Int} (h : Decimal.fitsInt64 n = true) :
    isCount (.int n) = true := by
  rw [Json.int, isCount, Decimal.readInt64?_ofInt h]
  rfl

/-- A place as it is read. -/
def Span.readJson (s : Span) : Json :=
  .obj [("file", .str s.file.cleaned), ("startLine", .int s.startLine), ("startCol", .int s.startCol),
    ("endLine", .int s.endLine), ("endCol", .int s.endCol)]

theorem Span.isReadAs_toJson (s : Span) : Json.IsReadAs 1 s.toJson.render s.readJson := by
  have hcount : ∀ {name : Bytes} (n : Int), name.cleaned = name →
      Json.IsMember 0 (name, .int n) (name, .int n) := fun n hname =>
    ⟨hname.symm, Json.isReadAs_num (Json.isNumber_ofInt n) 0⟩
  refine Json.isReadAs_obj (.cons ⟨rfl, Json.isReadAs_str s.file 0⟩ ?_)
  exact .cons (hcount _ rfl) (.cons (hcount _ rfl) (.cons (hcount _ rfl) (.cons (hcount _ rfl) .nil)))

theorem Span.Fits.isSpan_readJson {s : Span} (h : s.Fits) :
    TraceEntry.isSpan s.readJson = true := by
  have hfile : TraceEntry.isSpanMember ("file", .str s.file.cleaned) = true := rfl
  have hcount : ∀ {name : Bytes} {n : Int}, name ∈ TraceEntry.countNames →
      Decimal.fitsInt64 n = true → TraceEntry.isSpanMember (name, .int n) = true := by
    intro name n hname hn
    have hnames : ∀ name ∈ TraceEntry.countNames, TraceEntry.matchesKey "file" name = false ∧
        TraceEntry.countNames.any (TraceEntry.matchesKey · name) = true := by decide +kernel
    rw [TraceEntry.isSpanMember, (hnames name hname).1, (hnames name hname).2]
    exact TraceEntry.isCount_int hn
  rw [readJson, TraceEntry.isSpan, List.all_eq_true, List.forall_mem_cons, List.forall_mem_cons,
    List.forall_mem_cons, List.forall_mem_cons, List.forall_mem_singleton]
  exact ⟨hfile, hcount (by decide) h.startLine, hcount (by decide) h.startCol,
    hcount (by decide) h.endLine, hcount (by decide) h.endCol⟩

/-! ### Events -/

namespace Event

/-- The members of the object that is written for an event. -/
def members (time : Bytes) (e : Event) : List (Bytes × Json) :=
  let place : List (Bytes × Json) := e.span.toList.map fun s => ("span", s.toJson)
  let details : List (Bytes × Json) :=
    if e.data.isEmpty then [] else [("data", .obj (e.data.map fun d => (d.1, .str d.2)))]
  ("ts", .str time) :: ("runId", .str e.runId) :: ("event", .str e.kind.name) :: (place ++ details)

theorem traceLine_eq (time : Bytes) (e : Event) :
    e.traceLine time = (Json.obj (e.members time)).render ++ [Bytes.newline] := by
  obtain ⟨kind, runId, span, data⟩ := e
  cases span with
  | none => cases data <;> rfl
  | some s => cases data <;> rfl

/-- The details of the event as they are read. -/
def details (e : Event) : List (Bytes × Bytes) := e.data.map fun d => (d.1.cleaned, d.2.cleaned)

/-- The members as they are read. -/
def readMembers (time : Bytes) (e : Event) : List (Bytes × Json) :=
  let place : List (Bytes × Json) := e.span.toList.map fun s => ("span", s.readJson)
  let details : List (Bytes × Json) :=
    if e.data.isEmpty then [] else [("data", .obj (e.details.map fun d => (d.1, .str d.2)))]
  ("ts", .str time.cleaned) :: ("runId", .str e.runId.cleaned) :: ("event", .str e.kind.name)
    :: (place ++ details)

/-- The event as it is read. -/
def entry (time : Bytes) (e : Event) : TraceEntry :=
  ⟨time.cleaned, e.runId.cleaned, e.kind.name, .ofList e.details⟩

theorem isMember_members (time : Bytes) (e : Event) :
    List.Forall₂ (Json.IsMember 1) (e.members time) (e.readMembers time) := by
  have htext : ∀ {key : Bytes} (t : Bytes), key.cleaned = key →
      Json.IsMember 1 (key, .str t) (key, .str t.cleaned) := fun t hkey =>
    ⟨hkey.symm, Json.isReadAs_str t 1⟩
  have hkind : e.kind.name.cleaned = e.kind.name := by
    cases e.kind <;> rfl
  have hevent : Json.IsMember 1 ("event", .str e.kind.name) ("event", .str e.kind.name.cleaned) :=
    htext e.kind.name rfl
  rw [hkind] at hevent
  refine .cons (htext time rfl) (.cons (htext e.runId rfl) (.cons hevent (List.rel_append ?_ ?_)))
  · cases e.span with
    | none => exact .nil
    | some s => exact .cons ⟨rfl, s.isReadAs_toJson⟩ .nil
  · split
    · exact .nil
    · refine .cons ⟨rfl, Json.isReadAs_obj ?_⟩ .nil
      rw [details, List.map_map, List.forall₂_map_left_iff, List.forall₂_map_right_iff,
        List.forall₂_same]
      intro d _
      exact ⟨rfl, Json.isReadAs_str d.2 0⟩

theorem details?_eq (before : NameMap Bytes) (data : List (Bytes × Bytes)) :
    TraceEntry.details? before (.obj (data.map fun d => (d.1, .str d.2)))
      = some (data.foldl (fun m d => m.put d.1 d.2) before) := by
  rw [TraceEntry.details?, List.foldlM_map]
  induction data generalizing before with
  | nil => rfl
  | cons d data ih => exact ih (before.put d.1 d.2)

theorem foldlM_addMember_singleton {t t' : TraceEntry} {m : Bytes × Json}
    (h : t.addMember m = some t') : [m].foldlM TraceEntry.addMember t = some t' := by
  rw [List.foldlM_cons, h]
  rfl

/-- The members of an event are read as the event. -/
theorem ofJson?_readMembers (time : Bytes) {e : Event} (h : ∀ s ∈ e.span, s.Fits) :
    TraceEntry.ofJson? (.obj (e.readMembers time)) = some (e.entry time) := by
  -- Time, run and kind come first. A place changes nothing, details start from none.
  let named : TraceEntry := ⟨time.cleaned, e.runId.cleaned, e.kind.name, .empty⟩
  have hplace : (e.span.toList.map fun s => (("span" : Bytes), s.readJson)).foldlM
      TraceEntry.addMember named = some named := by
    cases hspan : e.span with
    | none => rfl
    | some s =>
      apply foldlM_addMember_singleton
      show (if TraceEntry.isSpan s.readJson then some named else none) = some named
      rw [(h s hspan).isSpan_readJson, if_pos rfl]
  show List.foldlM TraceEntry.addMember named _ = _
  rw [List.foldlM_append, hplace, Option.bind_eq_bind, Option.bind_some]
  split
  · next hempty =>
    rw [entry, details, List.isEmpty_iff.1 hempty]
    rfl
  · apply foldlM_addMember_singleton
    show (TraceEntry.details? .empty _).map _ = _
    rw [details?_eq]
    rfl

end Event

/-! ### Lines -/

/-- The line is read as the event: nothing is taken off it before. -/
structure IsEntryLine (line : Bytes) (e : TraceEntry) : Prop where
  newline_notMem : Bytes.newline ∉ line
  chomp_eq : Line.chomp line = line
  trim_eq : line.trim = line
  ne_nil : line ≠ []
  ofLine?_eq : TraceEntry.ofLine? line = some e

theorem Bytes.trim_braces {inner : Bytes} (h : inner.isWellFormed = true) :
    Bytes.trim ("\x7b" ++ inner ++ "\x7d") = "\x7b" ++ inner ++ "\x7d" := by
  obtain ⟨cs, rfl⟩ := exists_ofChars h
  have hchars : ("\x7b" : Bytes) ++ ofChars cs ++ "\x7d" = ofChars ('\x7b' :: (cs ++ ['\x7d'])) := by
    rw [← List.singleton_append, ofChars_append, ofChars_append, List.append_assoc]
    rfl
  rw [hchars, trim_ofChars_cons (by decide), ← List.cons_append,
    List.rdropWhile_concat_neg _ _ _ (by decide)]

/-- The line of an event, without its end. -/
def Event.line (time : Bytes) (e : Event) : Bytes := (Json.obj (e.members time)).render

/-- The line of an event is read as the event. -/
theorem Event.isEntryLine (time : Bytes) {e : Event} (h : ∀ s ∈ e.span, s.Fits) :
    IsEntryLine (e.line time) (e.entry time) := by
  have hread := Json.isReadAs_obj (e.isMember_members time)
  have hinner := (Json.lexes_members (e.isMember_members time) (List.cons_ne_nil _ _)).1
  constructor
  · exact hread.clean.newline_notMem
  · rw [line, Json.render, Line.chomp, if_neg]
    rw [show ("\x7d" : Bytes) = [0x7D] from rfl, List.getLast?_concat]
    decide
  · rw [line, Json.render]
    exact Bytes.trim_braces hinner.wellFormed
  · rw [line, Json.render, List.append_assoc]
    exact List.cons_ne_nil _ _
  · rw [line, TraceEntry.ofLine?, Json.parse?_of_isReadAs hread (by decide), Option.bind_eq_bind,
      Option.bind_some]
    exact ofJson?_readMembers time h

theorem IsEntryLine.addLine {line : Bytes} {e : TraceEntry} (h : IsEntryLine line e) (s : Summary) :
    s.addLine line = s.add e := by
  rw [Summary.addLine, h.trim_eq, if_neg (by rw [List.isEmpty_iff]; exact h.ne_nil), h.ofLine?_eq]

theorem Line.split_flatMap {lines : List Bytes} (h : ∀ line ∈ lines, Bytes.newline ∉ line) :
    Line.split (lines.flatMap (· ++ [Bytes.newline])) = lines := by
  have hpieces := Bytes.lines_append lines h []
  rw [List.append_nil] at hpieces
  have hend : Bytes.lines [] = [[]] := rfl
  rw [Line.split, hpieces, hend, if_pos List.getLast?_concat, List.dropLast_concat]

/-- **A trace is read line by line.** If no line is too long, the summary of the lines of events
takes the events into account, one after the other. -/
theorem Summary.ofText_events {stamped : List (Bytes × Event)}
    (hfits : ∀ s ∈ stamped, ∀ span ∈ s.2.span, span.Fits)
    (hshort : Line.tooLong (stamped.flatMap fun s => s.2.traceLine s.1) = false) :
    Summary.ofText (stamped.flatMap fun s => s.2.traceLine s.1)
      = stamped.foldl (fun summary s => summary.add (s.2.entry s.1)) .blank := by
  have hentry : ∀ s ∈ stamped, IsEntryLine (s.2.line s.1) (s.2.entry s.1) := fun s hs =>
    Event.isEntryLine s.1 (hfits s hs)
  have htext : stamped.flatMap (fun s => s.2.traceLine s.1)
      = (stamped.map fun s => s.2.line s.1).flatMap (· ++ [Bytes.newline]) := by
    rw [List.flatMap_map]
    exact List.flatMap_congr fun s _ => s.2.traceLine_eq s.1
  have hsplit : Line.split (stamped.flatMap fun s => s.2.traceLine s.1)
      = stamped.map fun s => s.2.line s.1 := by
    rw [htext, Line.split_flatMap]
    rintro line hline
    obtain ⟨s, hs, rfl⟩ := List.mem_map.1 hline
    exact (hentry s hs).newline_notMem
  have hchomp : (stamped.map fun s => s.2.line s.1).map Line.chomp
      = stamped.map fun s => s.2.line s.1 := by
    rw [List.map_map]
    exact List.map_congr_left fun s hs => (hentry s hs).chomp_eq
  rw [Summary.ofText, Line.readable_of_short hshort, hsplit, hchomp, List.foldl_map]
  exact List.foldl_ext _ _ _ fun summary s hs => (hentry s hs).addLine summary

end Polish
