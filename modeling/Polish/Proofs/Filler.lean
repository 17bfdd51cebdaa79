import Polish.Proofs.Reassembly

/-!
# Lines between the instructions

A listing may have blank lines, comments and its header anywhere between the instructions. Such
filler changes nothing but the numbers of the lines below it: the same program is read, or the same
line is refused for the same reason, further down.

* `IsFiller`: the lines that hold no instruction, by what they look like.
* `withFiller`, `linesAbove`: the lines of a text with filler between them, and how far down each of
  them moves.
* `IsOffending`: the line that stops the reading of a listing.
* `assembleLines_withFiller`: reading with filler is reading without it, with moved failures.
-/

namespace Polish

/-! ### Filler -/

/-- A line that is blank, a comment after white space, or the header of a listing with white space
around it. -/
inductive IsFiller (line : Bytes) : Prop where
  | blank (h : ∀ r ∈ line.runes, r.isBlank = true)
  | comment {gap rest : List Rune} (hgap : ∀ r ∈ gap, r.isBlank = true)
      (hline : line.runes = gap ++ .char ';' :: rest)
  | header {front back : List Rune} (hfront : ∀ r ∈ front, r.isBlank = true)
      (hback : ∀ r ∈ back, r.isBlank = true)
      (hline : line.runes = front ++ (listingHeader.runes ++ back))

/-- The lines with other lines between them: those of `fill k` stand above line `k`, counted from
zero, or below the last line. -/
def withFiller (fill : Nat → List Bytes) : Nat → List Bytes → List Bytes
  | k, [] => fill k
  | k, line :: lines => fill k ++ line :: withFiller fill (k + 1) lines

/-- How many lines are put above one that had the number `n`, counted from one. -/
def linesAbove (fill : Nat → List Bytes) : Nat → Nat
  | 0 => 0
  | n + 1 => linesAbove fill n + (fill n).length

/-- The text becomes `padded` when short lines of filler are put between its lines. -/
structure IsPadded (fill : Nat → List Bytes) (text padded : Bytes) : Prop where
  filler : ∀ k, ∀ line ∈ fill k, IsFiller line
  short : ∀ k, ∀ line ∈ fill k, line.length < Line.limit
  lines : Line.split padded = withFiller fill 0 (Line.split text)

/-- A line of filler is skipped. -/
theorem IsFiller.isSkipped_trim {line : Bytes} (h : IsFiller line) :
    isSkipped line.trim = true := by
  cases h with
  | blank h =>
    rw [Bytes.trim_eq_nil h]
    rfl
  | @comment gap rest hgap hline =>
    -- the semicolon is no white space, so it is the first character that is left
    have hsemicolon : Rune.isBlank (.char ';') = false := by decide
    have hkept : ∃ kept, ((Rune.char ';' :: rest).reverse.dropWhile Rune.isBlank).reverse
        = .char ';' :: kept := by
      rw [List.reverse_cons, List.dropWhile_append]
      split
      · exact ⟨[], by rw [List.dropWhile_cons_of_neg (by rw [hsemicolon]; decide)]; rfl⟩
      · exact ⟨_, by rw [List.reverse_append]; rfl⟩
    obtain ⟨kept, hkept⟩ := hkept
    rw [Bytes.trim, hline, List.dropWhile_append_of_pos hgap,
      List.dropWhile_cons_of_neg (by rw [hsemicolon]; decide), hkept, Bytes.ofRunes_cons, isSkipped,
      Bool.or_eq_true]
    exact .inr rfl
  | @header front back hfront hback hline =>
    have hne : listingHeader.runes.isEmpty = false := by decide +kernel
    have hfirst : listingHeader.runes.dropWhile Rune.isBlank = listingHeader.runes := by
      decide +kernel
    have hlast : listingHeader.runes.reverse.dropWhile Rune.isBlank
        = listingHeader.runes.reverse := by decide +kernel
    rw [Bytes.trim, hline, List.dropWhile_append_of_pos hfront, List.dropWhile_append, hfirst, hne,
      if_neg (by decide), List.reverse_append,
      List.dropWhile_append_of_pos (by simpa using hback), hlast, List.reverse_reverse,
      Bytes.ofRunes_runes]
    rfl

/-! ### The lines that are read -/

section Padding

variable {fill : Nat → List Bytes}

theorem takeWhile_withFiller {p : Bytes → Bool} (h : ∀ k, ∀ line ∈ fill k, p line = true) (k : Nat)
    (lines : List Bytes) :
    (withFiller fill k lines).takeWhile p = withFiller fill k (lines.takeWhile p) := by
  induction lines generalizing k with
  | nil => exact List.takeWhile_eq_self_iff.mpr (h k)
  | cons line lines ih =>
    rw [withFiller, List.takeWhile_append_of_pos (h k)]
    cases hline : p line with
    | false =>
      rw [List.takeWhile_cons_of_neg (by rw [hline]; decide),
        List.takeWhile_cons_of_neg (by rw [hline]; decide), List.append_nil, withFiller]
    | true =>
      rw [List.takeWhile_cons_of_pos hline, List.takeWhile_cons_of_pos hline, ih, withFiller]

theorem any_withFiller {p : Bytes → Bool} (h : ∀ k, ∀ line ∈ fill k, p line = false) (k : Nat)
    (lines : List Bytes) : (withFiller fill k lines).any p = lines.any p := by
  have hfill : ∀ k, (fill k).any p = false := fun k => by simpa using h k
  induction lines generalizing k with
  | nil => exact hfill k
  | cons line lines ih =>
    rw [withFiller, List.any_append, List.any_cons, ih, hfill, Bool.false_or, List.any_cons]

theorem assembleLines_filler {filler : List Bytes} (h : ∀ line ∈ filler, IsFiller line)
    (file : Bytes) (number : Nat) (lines : List Bytes) :
    assembleLines file number (filler ++ lines)
      = assembleLines file (number + filler.length) lines := by
  induction filler generalizing number with
  | nil => rfl
  | cons line filler ih =>
    obtain ⟨hline, hfiller⟩ := List.forall_mem_cons.mp h
    rw [List.cons_append, assembleLines]
    simp only [hline.isSkipped_trim, if_true]
    rw [ih hfiller, List.length_cons, Nat.add_assoc, Nat.add_comm 1]

/-- The place of a line, without the white space around it. -/
def lineSpan (file : Bytes) (number : Nat) (line : Bytes) : Span :=
  ⟨file, number, 1, number, line.trim.length + 1⟩

theorem atSpan_lineSpan (f : Fault) (file : Bytes) (number : Nat) (line : Bytes) :
    Failure.atSpan f (lineSpan file number line) = ⟨f, some (lineSpan file number line)⟩ := by
  have hplaced : (lineSpan file number line).isZero = false := by
    rw [Bool.eq_false_iff, Ne, Span.isZero_iff]
    intro hzero
    cases congrArg Span.startCol hzero
  rw [Failure.atSpan, Span.toOption, hplaced]
  rfl

/-- A span further down in its file. -/
def Span.movedDown (n : Nat) (s : Span) : Span :=
  { s with startLine := s.startLine + n, endLine := s.endLine + n }

/-- A failure in a text without filler, as it is in the text with it. -/
def Failure.movedDown (fill : Nat → List Bytes) (f : Failure) : Failure :=
  { f with span := f.span.map fun s => s.movedDown (linesAbove fill s.startLine.toNat) }

/-- **Reading with filler** is reading without it, with the failures moved down. -/
theorem assembleLines_withFiller (h : ∀ k, ∀ line ∈ fill k, IsFiller line) (file : Bytes) (k : Nat)
    (lines : List Bytes) :
    assembleLines file (k + linesAbove fill k + 1) (withFiller fill k lines)
      = (assembleLines file (k + 1) lines).mapError (Failure.movedDown fill) := by
  induction lines generalizing k with
  | nil =>
    have hfill := assembleLines_filler (h k) file (k + linesAbove fill k + 1) []
    rw [List.append_nil] at hfill
    rw [withFiller, hfill]
    rfl
  | cons line lines ih =>
    -- the line moves from number `k + 1` down by the filler above it, its own included
    have hnumber : k + linesAbove fill k + 1 + (fill k).length
        = k + 1 + linesAbove fill (k + 1) := by
      rw [linesAbove]
      omega
    rw [withFiller, assembleLines_filler (h k), hnumber, assembleLines, assembleLines]
    simp only [ih (k + 1)]
    split
    · rfl
    · split
      · next f hf =>
        show Except.error (Failure.atSpan f (lineSpan file (k + 1 + linesAbove fill (k + 1)) line))
          = .error (Failure.movedDown fill (.atSpan f (lineSpan file (k + 1) line)))
        rw [atSpan_lineSpan, atSpan_lineSpan]
        rfl
      · cases assembleLines file (k + 1 + 1) lines <;> rfl

end Padding

theorem assembleLines_map_chomp (file : Bytes) (number : Nat) (lines : List Bytes) :
    assembleLines file number (lines.map Line.chomp) = assembleLines file number lines := by
  induction lines generalizing number with
  | nil => rfl
  | cons line lines ih =>
    rw [List.map_cons, assembleLines, assembleLines, Bytes.trim_chomp, ih]

/-- A listing is read up to its first long line, which is refused if the lines before it are not. -/
theorem assemble_eq (file text : Bytes) :
    assemble file text = (assembleLines file 1 ((Line.split text).takeWhile Line.fits)).bind
      fun code => if Line.tooLong text then .error (.ofFault .lineTooLong) else .ok code := by
  rw [assemble, Line.readable, assembleLines_map_chomp]
  rfl

/-- The text with filler is read as the text without it, with the failures moved down. -/
theorem assemble_padded {fill : Nat → List Bytes} {text padded : Bytes}
    (h : IsPadded fill text padded) (file : Bytes) :
    assemble file padded = (assemble file text).mapError (Failure.movedDown fill) := by
  have hfits : ∀ k, ∀ line ∈ fill k, Line.fits line = true := fun k line hline =>
    Line.fits_iff.mpr (h.short k line hline)
  have hlong : Line.tooLong padded = Line.tooLong text := by
    rw [Line.tooLong, h.lines, any_withFiller fun k line hline => by rw [hfits k line hline]; rfl]
    rfl
  have hlines := assembleLines_withFiller h.filler file 0 ((Line.split text).takeWhile Line.fits)
  have hnumber : 0 + linesAbove fill 0 + 1 = 1 := rfl
  rw [hnumber, Nat.zero_add] at hlines
  rw [assemble_eq, assemble_eq, h.lines, takeWhile_withFiller hfits, hlines, hlong]
  cases assembleLines file 1 ((Line.split text).takeWhile Line.fits) with
  | error f => rfl
  | ok code => cases Line.tooLong text <;> rfl

/-! ### The offending line -/

/-- The line stops the reading of a listing: it is neither skipped nor an instruction, and each line
before it is one of these. -/
structure IsOffending (before : List Bytes) (line : Bytes) (f : Fault) : Prop where
  passed : ∀ l ∈ before, isSkipped l.trim = true ∨ ∃ i, Instr.ofLine l.trim = .ok i
  noted : isSkipped line.trim = false
  refused : Instr.ofLine line.trim = .error f

theorem exists_isOffending {file : Bytes} {number : Nat} {lines : List Bytes} {f : Failure}
    (h : assembleLines file number lines = .error f) :
    ∃ before line after, lines = before ++ line :: after ∧ IsOffending before line f.fault ∧
      f.span = some (lineSpan file (number + before.length) line) := by
  induction lines generalizing number with
  | nil => cases h
  | cons first lines ih =>
    -- what the remaining lines are refused for, if the first one is passed
    have hlater : (isSkipped first.trim = true ∨ ∃ i, Instr.ofLine first.trim = .ok i) →
        assembleLines file (number + 1) lines = .error f →
        ∃ before line after, first :: lines = before ++ line :: after ∧
          IsOffending before line f.fault ∧
          f.span = some (lineSpan file (number + before.length) line) := by
      intro hfirst hrest
      obtain ⟨before, line, after, rfl, hline, hspan⟩ := ih hrest
      refine ⟨first :: before, line, after, rfl, ⟨?_, hline.noted, hline.refused⟩, ?_⟩
      · exact List.forall_mem_cons.mpr ⟨hfirst, hline.passed⟩
      · rw [hspan, List.length_cons, Nat.add_assoc, Nat.add_comm 1]
    rw [assembleLines] at h
    split at h
    · next hskip => exact hlater (.inl hskip) h
    · next hskip =>
      split at h
      · next fault hfault =>
        obtain rfl : Failure.atSpan fault (lineSpan file number first) = f := Except.error.inj h
        rw [atSpan_lineSpan]
        exact ⟨[], first, lines, rfl, ⟨by simp, Bool.eq_false_iff.mpr hskip, hfault⟩, rfl⟩
      · next i hi =>
        cases hrest : assembleLines file (number + 1) lines with
        | error g =>
          rw [hrest] at h
          obtain rfl : g = f := Except.error.inj h
          exact hlater (.inr ⟨i, hi⟩) hrest
        | ok code =>
          rw [hrest] at h
          cases h

/-- A failure of reading that has a place is that of the offending line. -/
theorem exists_of_assemble_error {file text : Bytes} {f : Failure} {s : Span}
    (h : assemble file text = .error f) (hspan : f.span = some s) :
    ∃ before line after, Line.split text = before ++ line :: after ∧
      IsOffending before line f.fault ∧ s = lineSpan file (before.length + 1) line := by
  rw [assemble_eq] at h
  rcases Result.bind_eq_error.mp h with hlines | ⟨code, -, hlong⟩
  · obtain ⟨before, line, after, hsplit, hline, hplace⟩ := exists_isOffending hlines
    obtain ⟨rest, hrest⟩ := List.takeWhile_prefix (l := Line.split text) Line.fits
    refine ⟨before, line, after ++ rest, ?_, hline, ?_⟩
    · rw [← hrest, hsplit, List.append_assoc, List.cons_append]
    · rw [Nat.add_comm, ← Option.some_inj, ← hspan, hplace]
  · split at hlong
    · cases hlong
      cases hspan
    · cases hlong

/-- **Filler and rewriting change nothing.** What was read from a listing can be written and read
again. With short lines of filler between its lines, a text is read as the same program; or it is
refused for the same reason, and the place of the offending line, if a line is to blame, moves down
by the lines put above it. -/
theorem assembly_is_stable (file text : Bytes) :
    (∀ code, assemble file text = .ok code →
      ∀ saved, assemble saved (listing code) = .ok code) ∧
    ∀ fill padded, IsPadded fill text padded →
      (∀ code, assemble file text = .ok code → assemble file padded = .ok code) ∧
      ∀ f, assemble file text = .error f →
        ∃ f', assemble file padded = .error f' ∧ f'.fault = f.fault ∧
          (f.span = none → f'.span = none) ∧
          ∀ s, f.span = some s → ∃ before line after,
            Line.split text = before ++ line :: after ∧ IsOffending before line f.fault ∧
            s = lineSpan file (before.length + 1) line ∧
            f'.span = some (lineSpan file
              (before.length + 1 + linesAbove fill (before.length + 1)) line) := by
  refine ⟨fun code h saved => ?_, fun fill padded hpadded => ⟨fun code h => ?_, fun f h => ?_⟩⟩
  · exact assemble_listing_of_isNormal (isNormal_of_assemble h) saved
  · rw [assemble_padded hpadded, h]
    rfl
  · refine ⟨f.movedDown fill, ?_, rfl, fun hspan => ?_, fun s hspan => ?_⟩
    · rw [assemble_padded hpadded, h]
      rfl
    · rw [Failure.movedDown, hspan]
      rfl
    · obtain ⟨before, line, after, hsplit, hline, rfl⟩ := exists_of_assemble_error h hspan
      refine ⟨before, line, after, hsplit, hline, rfl, ?_⟩
      rw [Failure.movedDown, hspan]
      rfl

/-- A number with a sign, zeros, a blank of two bytes and a carriage return, that is written in its
shortest form; and a word that is no mnemonic, which moves from line 2 to line 5. -/
theorem assembly_is_stable_refused :
    let text : Bytes := "LOAD a\nFOO"
    let padded : Bytes := "\t; c\nLOAD a\n\u00A0\nCompiled code:\r\nFOO\n"
    let fill : Nat → List Bytes
      | 0 => ["\t; c"]
      | 1 => ["\u00A0", "Compiled code:\r"]
      | _ => []
    assemble "f" "PUSH\u00A0+007\r\nSTORE n" = .ok [.push 7, .store "n"] ∧
      assemble "g" (listing [.push 7, .store "n"]) = .ok [.push 7, .store "n"] ∧
      IsPadded fill text padded ∧
      assemble "f" text = .error ⟨.unknownMnemonic "FOO", some (lineSpan "f" 2 "FOO")⟩ ∧
      ∃ f, assemble "f" padded = .error f ∧ f.fault = .unknownMnemonic "FOO" ∧
        f.span = some (lineSpan "f" 5 "FOO") := by
  intro text padded fill
  have hcode : assemble "f" "PUSH\u00A0+007\r\nSTORE n" = .ok [.push 7, .store "n"] := rfl
  have htext : assemble "f" text
      = .error ⟨.unknownMnemonic "FOO", some (lineSpan "f" 2 "FOO")⟩ := rfl
  have hcomment : IsFiller "\t; c" := by
    refine .comment ?_ (show Bytes.runes "\t; c"
      = [.char '\t'] ++ .char ';' :: [.char ' ', .char 'c'] by decide +kernel)
    decide
  have hblank : IsFiller "\u00A0" := .blank (by decide +kernel)
  have hheader : IsFiller "Compiled code:\r" := by
    refine .header ?_ ?_ (show Bytes.runes "Compiled code:\r"
      = [] ++ (listingHeader.runes ++ [.char '\r']) by decide +kernel)
    · decide
    · decide
  have hpadded : IsPadded fill text padded := by
    refine ⟨?_, ?_, by decide +kernel⟩
    · rintro (_ | _ | k)
      · exact List.forall_mem_singleton.mpr hcomment
      · exact List.forall_mem_cons.mpr ⟨hblank, List.forall_mem_singleton.mpr hheader⟩
      · simp [fill]
    · rintro (_ | _ | k)
      · decide
      · decide
      · simp [fill]
  obtain ⟨-, hfill⟩ := assembly_is_stable "f" text
  obtain ⟨f, hf, hfault, -, hspan⟩ := (hfill fill padded hpadded).2 _ htext
  refine ⟨hcode, (assembly_is_stable "f" _).1 _ hcode "g", hpadded, htext, f, hf, hfault, ?_⟩
  obtain ⟨before, line, -, -, -, hplace, hspan⟩ := hspan _ rfl
  have hnumber : before.length + 1 = 2 :=
    (Int.ofNat.inj (congrArg Span.startLine hplace)).symm
  have hstop : (line.trim.length : Int) + 1 = 3 + 1 :=
    (congrArg Span.endCol hplace).symm
  rw [hspan, hnumber, lineSpan, hstop]
  rfl

end Polish
