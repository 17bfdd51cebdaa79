import Polish.Proofs.Fields
import Polish.Proofs.TraceText

/-!
# Lines that are no events

A trace is read line by line, and a line that holds no event is skipped: it may be blank, or no
JSON, or JSON of another shape. Such a line changes nothing wherever it stands, as long as it can be
read at all. A line that is too long is not skipped: reading stops there for good, nothing is said
about it, and the events below it are not counted.

* `TraceEntry.ofLines`: the events on the lines that are read.
* `TraceEntry.ofLines_insert_short`, `TraceEntry.ofLines_insert_long`: a line without an event among
  them.
* `Summary.ofText_eq_ofEntries`: a summary takes these events into account, one after the other.
* `Summary.skips_exactly_short_lines`: what a line without an event does to a summary.
-/

namespace Polish

theorem Line.newline_notMem_of_mem_split {text line : Bytes} (h : line ∈ split text) :
    Bytes.newline ∉ line := by
  have hmem : line ∈ text.lines := by
    rw [split] at h
    split at h
    · exact List.dropLast_subset _ h
    · exact h
  have hpiece : line ∈ text.splitOnP (· == Bytes.newline) := by
    rw [← List.splitOn_eq_splitOnP]
    exact hmem
  intro hnewline
  exact absurd ((Bytes.mem_splitOnP hpiece).2 _ hnewline) (by decide)

/-! ### The events on some lines -/

namespace TraceEntry

/-- The event on a line, which may have white space around it. -/
def ofPadded? (line : Bytes) : Option TraceEntry := ofLine? line.trim

/-- A blank line holds no event. -/
theorem ofPadded?_of_blank {line : Bytes} (h : ∀ r ∈ line.runes, r.isBlank = true) :
    ofPadded? line = none := by
  rw [ofPadded?, Bytes.trim_eq_nil h]
  rfl

/-- The events on the lines above the first that is too long. -/
def ofLines (lines : List Bytes) : List TraceEntry :=
  (lines.takeWhile Line.fits).filterMap ofPadded?

variable {line : Bytes}

/-- A line that can be read and holds no event changes nothing. -/
theorem ofLines_insert_short (hfits : Line.fits line = true) (hline : ofPadded? line = none)
    (front back : List Bytes) : ofLines (front ++ line :: back) = ofLines (front ++ back) := by
  induction front with
  | nil =>
    rw [List.nil_append, List.nil_append, ofLines, List.takeWhile_cons_of_pos hfits,
      List.filterMap_cons_none hline, ofLines]
  | cons l front ih =>
    rw [ofLines, ofLines] at ih ⊢
    rw [List.cons_append, List.cons_append]
    cases hl : Line.fits l with
    | false =>
      rw [List.takeWhile_cons_of_neg (by rw [hl]; decide),
        List.takeWhile_cons_of_neg (by rw [hl]; decide)]
    | true =>
      rw [List.takeWhile_cons_of_pos hl, List.takeWhile_cons_of_pos hl, List.filterMap_cons,
        List.filterMap_cons, ih]

/-- A line that is too long hides the lines below it. -/
theorem ofLines_insert_long (hlong : Line.fits line = false) (front back : List Bytes) :
    ofLines (front ++ line :: back) = ofLines front := by
  rw [ofLines, ofLines, List.takeWhile_append, List.takeWhile_cons_of_neg (by rw [hlong]; decide),
    List.append_nil]
  split
  · next hall => rw [(List.takeWhile_prefix Line.fits).eq_of_length hall]
  · rfl

end TraceEntry

/-! ### The summary of a text -/

namespace Summary

/-- The summary of some events. -/
def ofEntries (entries : List TraceEntry) : Summary := entries.foldl add blank

theorem addLine_chomp (s : Summary) (line : Bytes) :
    s.addLine (Line.chomp line) = (TraceEntry.ofPadded? line).elim s s.add := by
  rw [addLine, Bytes.trim_chomp, TraceEntry.ofPadded?]
  cases line.trim with
  | nil => rfl
  | cons b rest => cases TraceEntry.ofLine? (b :: rest) <;> rfl

/-- A summary takes the events on the lines that are read into account. -/
theorem ofText_eq_ofEntries (text : Bytes) :
    ofText text = ofEntries (TraceEntry.ofLines (Line.split text)) := by
  rw [ofText, Line.readable, List.foldl_map, ofEntries, TraceEntry.ofLines, List.foldl_filterMap]
  congr 1
  funext s line
  rw [addLine_chomp]
  cases TraceEntry.ofPadded? line <;> rfl

/-- Every event counts as one, of whatever kind it is. -/
theorem totalEvents_add (s : Summary) (e : TraceEntry) :
    (s.add e).totalEvents = s.totalEvents + 1 := by
  simp only [add, addStatement, addStep]
  repeat' split
  all_goals rfl

theorem totalEvents_ofEntries (entries : List TraceEntry) :
    (ofEntries entries).totalEvents = entries.length := by
  have hfold : ∀ s : Summary,
      (entries.foldl add s).totalEvents = s.totalEvents + entries.length := by
    induction entries with
    | nil => exact fun s => rfl
    | cons e entries ih =>
      intro s
      rw [List.foldl_cons, ih, totalEvents_add, List.length_cons]
      omega
  rw [ofEntries, hfold]
  exact Nat.zero_add _

/-- **A line without an event is skipped exactly if it can be read.** Put a line that is blank, or
that is no event once the white space around it is trimmed, anywhere between the lines of a text. A
line shorter than the limit leaves the summary as it is. From a longer line on nothing is read: the
summary is that of the lines above it. And a summary counts every event on the lines above the
first that is too long, whatever the other lines hold. -/
theorem skips_exactly_short_lines {text text' line : Bytes} {front back : List Bytes}
    (hline : (∀ r ∈ line.runes, r.isBlank = true) ∨ TraceEntry.ofLine? line.trim = none)
    (htext : Line.split text = front ++ back) (htext' : Line.split text' = front ++ line :: back) :
    (line.length < Line.limit → ofText text' = ofText text) ∧
      (Line.limit ≤ line.length →
        ofText text' = ofText (front.flatMap (· ++ [Bytes.newline]))) ∧
      (ofText text).totalEvents = ((Line.split text).takeWhile Line.fits).countP
        fun l => (TraceEntry.ofLine? l.trim).isSome := by
  have hnone : TraceEntry.ofPadded? line = none := by
    rcases hline with hblank | hnone
    · exact TraceEntry.ofPadded?_of_blank hblank
    · exact hnone
  have hfront : Line.split (front.flatMap (· ++ [Bytes.newline])) = front := by
    refine Line.split_flatMap fun l hl => ?_
    have hmem : l ∈ Line.split text := by
      rw [htext]
      exact List.mem_append_left back hl
    exact Line.newline_notMem_of_mem_split hmem
  refine ⟨fun hshort => ?_, fun hlong => ?_, ?_⟩
  · rw [ofText_eq_ofEntries, ofText_eq_ofEntries, htext, htext',
      TraceEntry.ofLines_insert_short (Line.fits_iff.mpr hshort) hnone]
  · have hfits : Line.fits line = false := decide_eq_false (by omega)
    rw [ofText_eq_ofEntries, ofText_eq_ofEntries, hfront, htext',
      TraceEntry.ofLines_insert_long hfits]
  · rw [ofText_eq_ofEntries, totalEvents_ofEntries, TraceEntry.ofLines,
      List.length_filterMap_eq_countP]
    rfl

/-- A blank line between two events. With 65535 blanks it is skipped; with one blank more, the event
below it is not counted. -/
theorem skips_exactly_short_lines_blank :
    let event : Bytes := "\x7b\"event\":\"run_start\"\x7d"
    let text (n : Nat) : Bytes := [event, Bytes.spaces n, event].flatMap (· ++ [Bytes.newline])
    (ofText (text 65535)).totalEvents = 2 ∧ (ofText (text 65536)).totalEvents = 1 := by
  intro event text
  have hblank : ∀ n, ∀ r ∈ (Bytes.spaces n).runes, r.isBlank = true := by
    intro n
    induction n with
    | zero => exact List.forall_mem_nil _
    | succ n ih =>
      have hread : (Bytes.spaces (n + 1)).runes = .char ' ' :: (Bytes.spaces n).runes :=
        Bytes.runes_cons_ascii (b := 0x20) (by decide) (Bytes.spaces n)
      rw [hread, List.forall_mem_cons]
      exact ⟨by decide +kernel, ih⟩
  have hevent : Bytes.newline ∉ event := by decide
  have hspaces : ∀ n, Bytes.newline ∉ Bytes.spaces n := fun n hmem =>
    absurd (List.eq_of_mem_replicate hmem) (by decide)
  have hsplit : ∀ n, Line.split (text n) = [event] ++ Bytes.spaces n :: [event] := fun n =>
    Line.split_flatMap (List.forall_mem_cons.mpr ⟨hevent, List.forall_mem_cons.mpr
      ⟨hspaces n, List.forall_mem_singleton.mpr hevent⟩⟩)
  have hrest : Line.split ([event, event].flatMap (· ++ [Bytes.newline])) = [event] ++ [event] := by
    decide +kernel
  obtain ⟨hshort, -, -⟩ := skips_exactly_short_lines (.inl (hblank 65535)) hrest (hsplit 65535)
  obtain ⟨-, hlong, -⟩ := skips_exactly_short_lines (.inl (hblank 65536)) hrest (hsplit 65536)
  rw [hshort (by rw [Bytes.length_spaces]; decide), hlong (by rw [Bytes.length_spaces]; decide)]
  decide +kernel

end Summary

end Polish
