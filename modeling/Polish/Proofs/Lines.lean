import Polish.Token.Scanner
import Polish.Proofs.Result
import Polish.Proofs.Utf8

/-!
# Sources line by line

The scanner is a machine that goes over a source byte by byte and keeps a line and a column. A
reader finds the same words without it: cut the source into lines, drop the comment of each line,
split what is left at blanks. Both readings agree on every source, places included.

The scanner counts lead bytes, and a reader counts characters. The two counts are the same as long
as the text before a word is well-formed, so they may differ only after the first word that is
refused, where no token is made any more.

* `codePart`, `lineWords`, `sourceWords`: the words of a source as a reader finds them.
* `scanFrom_piece`, `scanFrom_code`, `scanFrom_line`: what the scanner makes of a run of bytes
  between two blanks, of a line without its comment, and of a line.
* `scanWords_eq`: the scanner finds the words of the reader, with columns in lead bytes.
* `Bytes.leads_eq_length_chars`: in well-formed text, lead bytes count characters.
* `Legible`: up to the first malformed word, what stands before a word is well-formed.
* `tokenize_eq_sourceWords`: the tokens of a source, and the place of its first malformed word.
-/

namespace Polish

/-! ### The words of a source -/

/-- The part of a line before its comment. -/
def codePart (line : Bytes) : Bytes := line.takeWhile (· != commentByte)

/-- A blank inside a line: space, tab, carriage return, form feed or vertical tab. -/
def isLineBlank (b : UInt8) : Bool := [0x20, 0x09, 0x0D, 0x0C, 0x0B].contains b

/-- A word as a reader finds it: the number of its line, what stands before it on that line, and
its text. -/
structure PlacedWord where
  line : Nat
  before : Bytes
  text : Bytes
deriving DecidableEq, Repr

/-- The pieces of a text that was cut at single bytes, each with its offset. -/
def withOffsets (offset : Nat) : List Bytes → List (Nat × Bytes)
  | [] => []
  | piece :: rest => (offset, piece) :: withOffsets (offset + piece.length + 1) rest

/-- The words of the code of a line from some place on; `done` is the code before that place. -/
def wordsAfter (number : Nat) (done code : Bytes) : List PlacedWord :=
  ((withOffsets done.length (code.splitOnP isLineBlank)).filter fun piece => !piece.2.isEmpty).map
    fun piece => ⟨number, (done ++ code).take piece.1, piece.2⟩

/-- The words of a line: the pieces of its code between blanks, without the empty ones. -/
def lineWords (number : Nat) (line : Bytes) : List PlacedWord :=
  wordsAfter number [] (codePart line)

/-- The words of a source, line by line. -/
def sourceWords (source : Bytes) : List PlacedWord :=
  (source.lines.zipIdx 1).flatMap fun line => lineWords line.2 line.1

namespace PlacedWord

/-- The column of the first character: one more than the number of characters before it. -/
def startCol (w : PlacedWord) : Nat := 1 + w.before.chars.length

/-- The column after the last character. -/
def endCol (w : PlacedWord) : Nat := w.startCol + w.text.chars.length

/-- The range of the word. -/
def span (file : Bytes) (w : PlacedWord) : Span := ⟨file, w.line, w.startCol, w.line, w.endCol⟩

/-- The range of the word's first character. -/
def firstSpan (file : Bytes) (w : PlacedWord) : Span :=
  ⟨file, w.line, w.startCol, w.line, w.startCol + 1⟩

end PlacedWord

/-! ### Cutting a list at single members -/

/-- A list is one piece without a cut, or a piece, a cut and a shorter list. -/
@[elab_as_elim]
theorem cut_induction {α : Type} {p : α → Bool} {motive : List α → Prop}
    (last : ∀ piece, (∀ x ∈ piece, p x = false) → motive piece)
    (cut : ∀ piece x rest, (∀ y ∈ piece, p y = false) → p x = true → motive rest →
      motive (piece ++ x :: rest))
    (xs : List α) : motive xs := by
  -- the piece that is being read grows until its cut is found
  have hfrom : ∀ piece, (∀ y ∈ piece, p y = false) → motive (piece ++ xs) := by
    induction xs with
    | nil =>
      intro piece hpiece
      rw [List.append_nil]
      exact last piece hpiece
    | cons x xs ih =>
      intro piece hpiece
      by_cases hx : p x = true
      · exact cut piece x xs hpiece hx (ih [] (by simp))
      · rw [List.append_cons]
        refine ih (piece ++ [x]) fun y hy => ?_
        rcases List.mem_append.mp hy with hy | hy
        · exact hpiece y hy
        · rw [List.mem_singleton.mp hy]
          exact Bool.eq_false_iff.mpr hx
  exact hfrom [] (by simp)

/-- A complete line is the first line of a text. -/
theorem Bytes.lines_append_newline {x : Bytes} (h : ∀ b ∈ x, b ≠ newline) (rest : Bytes) :
    (x ++ "\n" ++ rest).lines = x :: rest.lines := by
  have hx : ∀ b ∈ x, (b == newline) = false := fun b hb => beq_false_of_ne (h b hb)
  rw [lines, lines, List.splitOn_eq_splitOnP, List.splitOn_eq_splitOnP, List.append_assoc]
  exact List.splitOnP_append_cons_of_forall_mem hx newline (by decide) rest

/-- Complete lines are the first lines of a text. -/
theorem Bytes.lines_append (complete : List Bytes) (h : ∀ line ∈ complete, newline ∉ line)
    (rest : Bytes) :
    lines (complete.flatMap (· ++ [newline]) ++ rest) = complete ++ rest.lines := by
  induction complete with
  | nil => rfl
  | cons line complete ih =>
    obtain ⟨hline, hcomplete⟩ := List.forall_mem_cons.mp h
    have hbytes : ∀ b ∈ line, b ≠ newline := by
      rintro b hb rfl
      exact hline hb
    rw [List.flatMap_cons, List.append_assoc, List.cons_append, ← ih hcomplete]
    exact lines_append_newline hbytes _

section Words

variable (number : Nat) (done : Bytes)

/-- The word of one piece, unless it is empty. -/
def pieceWords (piece : Bytes) : List PlacedWord :=
  if piece.isEmpty then [] else [⟨number, done, piece⟩]

theorem wordsAfter_last {piece : Bytes} (h : ∀ b ∈ piece, isLineBlank b = false) :
    wordsAfter number done piece = pieceWords number done piece := by
  rw [wordsAfter, List.splitOnP_eq_singleton h, withOffsets, withOffsets, pieceWords]
  cases piece with
  | nil => rfl
  | cons b piece => simp

theorem wordsAfter_cut {piece rest : Bytes} {b : UInt8} (h : ∀ b ∈ piece, isLineBlank b = false)
    (hb : isLineBlank b = true) :
    wordsAfter number done (piece ++ b :: rest)
      = pieceWords number done piece ++ wordsAfter number (done ++ piece ++ [b]) rest := by
  have hlength : (done ++ piece ++ [b]).length = done.length + piece.length + 1 := by
    simp [Nat.add_assoc]
  have htext : done ++ (piece ++ b :: rest) = done ++ piece ++ [b] ++ rest := by simp
  rw [wordsAfter, List.splitOnP_append_cons_of_forall_mem h b hb, withOffsets, wordsAfter, hlength,
    htext, pieceWords]
  cases piece with
  | nil => simp
  | cons c piece => simp

end Words

/-! ### The scanner on one line -/

/-- How many bytes begin a character or stand alone. -/
def Bytes.leads (text : Bytes) : Nat := text.countP Bytes.isLead

theorem Bytes.leads_append (xs ys : Bytes) : leads (xs ++ ys) = leads xs + leads ys :=
  List.countP_append

/-- The word as the scanner places it: columns count lead bytes. -/
def PlacedWord.scanned (w : PlacedWord) : Word :=
  ⟨w.text, ⟨w.line, 1 + w.before.leads⟩, ⟨w.line, 1 + (w.before ++ w.text).leads⟩⟩

theorem isWordByte_iff {b : UInt8} :
    isWordByte b = true ↔ isLineBlank b = false ∧ b ≠ Bytes.newline ∧ b ≠ commentByte := by
  have hgap : isGapByte b = (isLineBlank b || b == Bytes.newline) := by
    simp only [isGapByte, isLineBlank, List.contains_cons, List.contains_nil, Bytes.newline]
    ac_rfl
  rw [isWordByte, hgap]
  simp [and_assoc]

/-- Within a line, a byte moves the column only. -/
theorem Position.advance_of_ne_newline {b : UInt8} (h : b ≠ Bytes.newline) (number : Nat)
    (done : Bytes) :
    advance ⟨number, 1 + done.leads⟩ b = ⟨number, 1 + (done ++ [b]).leads⟩ := by
  rw [advance, if_neg h, Bytes.leads_append, Bytes.leads, Bytes.leads, List.countP_singleton]
  split <;> rfl

/-- No byte at the front of the text carries on a word. -/
def EndsWord (text : Bytes) : Prop := ∀ b ∈ text.head?, isWordByte b = false

/-- A word ends where no byte carries it on. -/
theorem scanFrom_word_of_endsWord {tail : Bytes} (h : EndsWord tail) (start : Position)
    (read : Bytes) (p : Position) :
    scanFrom (.word start read) p tail = ⟨read.reverse, start, p⟩ :: scanFrom .gap p tail := by
  cases tail with
  | nil => rfl
  | cons b tail =>
    have hb : isWordByte b = false := h b rfl
    rw [scanFrom, scanFrom, hb]
    rfl

/-- The scanner reads a started word up to its end. -/
theorem scanFrom_word {piece tail : Bytes} (h : ∀ b ∈ piece, isWordByte b = true)
    (htail : EndsWord tail) (number : Nat) (start : Position) (read done : Bytes) :
    scanFrom (.word start read) ⟨number, 1 + done.leads⟩ (piece ++ tail)
      = ⟨read.reverse ++ piece, start, ⟨number, 1 + (done ++ piece).leads⟩⟩
        :: scanFrom .gap ⟨number, 1 + (done ++ piece).leads⟩ tail := by
  induction piece generalizing read done with
  | nil => simp [scanFrom_word_of_endsWord htail]
  | cons b piece ih =>
    have hb := h b List.mem_cons_self
    have hne : b ≠ Bytes.newline := (isWordByte_iff.mp hb).2.1
    rw [List.cons_append, scanFrom, if_pos hb, Position.advance_of_ne_newline hne,
      ih (fun x hx => h x (List.mem_cons_of_mem b hx)), List.append_assoc, List.singleton_append,
      List.reverse_cons, List.append_assoc, List.singleton_append]

/-- What the scanner makes of a piece between blanks: a word, unless the piece is empty. -/
theorem scanFrom_piece {piece tail : Bytes} (h : ∀ b ∈ piece, isWordByte b = true)
    (htail : EndsWord tail) (number : Nat) (done : Bytes) :
    scanFrom .gap ⟨number, 1 + done.leads⟩ (piece ++ tail)
      = (pieceWords number done piece).map PlacedWord.scanned
        ++ scanFrom .gap ⟨number, 1 + (done ++ piece).leads⟩ tail := by
  cases piece with
  | nil => simp [pieceWords]
  | cons b piece =>
    have hb := h b List.mem_cons_self
    have hne : b ≠ Bytes.newline := (isWordByte_iff.mp hb).2.1
    rw [List.cons_append, scanFrom, if_pos hb, Position.advance_of_ne_newline hne,
      scanFrom_word (fun x hx => h x (List.mem_cons_of_mem b hx)) htail]
    simp [pieceWords, PlacedWord.scanned]

/-- What the scanner makes of the code of a line, or of the rest of it. -/
theorem scanFrom_code {code tail : Bytes}
    (h : ∀ b ∈ code, b ≠ Bytes.newline ∧ b ≠ commentByte) (htail : EndsWord tail) (number : Nat)
    (done : Bytes) :
    scanFrom .gap ⟨number, 1 + done.leads⟩ (code ++ tail)
      = (wordsAfter number done code).map PlacedWord.scanned
        ++ scanFrom .gap ⟨number, 1 + (done ++ code).leads⟩ tail := by
  -- a piece without blanks holds word bytes only
  have hword : ∀ {piece : Bytes}, (∀ b ∈ piece, isLineBlank b = false) →
      (∀ b ∈ piece, b ≠ Bytes.newline ∧ b ≠ commentByte) → ∀ b ∈ piece, isWordByte b = true :=
    fun hpiece hcode b hb => isWordByte_iff.mpr ⟨hpiece b hb, hcode b hb⟩
  -- the induction is on the blanks; `done` grows by a piece and a blank, and fixes the column
  induction code using cut_induction (p := isLineBlank) generalizing done with
  | last piece hpiece =>
    rw [scanFrom_piece (hword hpiece h) htail, wordsAfter_last number done hpiece]
  | cut piece b rest hpiece hb ih =>
    obtain ⟨hcode, hrest⟩ := List.forall_mem_append.mp h
    obtain ⟨⟨hline, hcomment⟩, hrest⟩ := List.forall_mem_cons.mp hrest
    have hend : isWordByte b = false := by
      rw [Bool.eq_false_iff]
      intro hbyte
      rw [(isWordByte_iff.mp hbyte).1] at hb
      cases hb
    have hgap : EndsWord (b :: (rest ++ tail)) := by
      rintro x ⟨⟩
      exact hend
    rw [List.append_assoc, List.cons_append, scanFrom_piece (hword hpiece hcode) hgap, scanFrom,
      hend, if_neg hcomment, Position.advance_of_ne_newline hline, if_neg (by decide), ih hrest,
      wordsAfter_cut number done hpiece hb]
    simp

/-- The text is empty or starts with a line feed. -/
def EndsLine (text : Bytes) : Prop := ∀ b ∈ text.head?, b = Bytes.newline

/-- The column does not matter at the end of a line. -/
theorem scanFrom_gap_of_endsLine {tail : Bytes} (h : EndsLine tail) (number col : Nat) :
    scanFrom .gap ⟨number, col⟩ tail = scanFrom .gap ⟨number, 1⟩ tail := by
  cases tail with
  | nil => rfl
  | cons b tail =>
    obtain rfl : b = Bytes.newline := h b rfl
    rfl

/-- A comment runs to the end of its line. -/
theorem scanFrom_comment {comment tail : Bytes} (h : ∀ b ∈ comment, b ≠ Bytes.newline)
    (htail : EndsLine tail) (number col : Nat) :
    scanFrom .comment ⟨number, col⟩ (comment ++ tail) = scanFrom .gap ⟨number, 1⟩ tail := by
  induction comment generalizing col with
  | nil =>
    cases tail with
    | nil => rfl
    | cons b tail =>
      obtain rfl : b = Bytes.newline := htail b rfl
      rfl
  | cons b comment ih =>
    obtain ⟨hb, hcomment⟩ := List.forall_mem_cons.mp h
    have hadvance : Position.advance ⟨number, col⟩ b
        = ⟨number, (Position.advance ⟨number, col⟩ b).col⟩ := by
      rw [Position.advance, if_neg hb]
      split <;> rfl
    rw [List.cons_append, scanFrom, if_neg hb, hadvance, ih hcomment]

/-- The comment of a line makes no words and moves no later place. -/
theorem scanFrom_gap_comment {comment tail : Bytes} (hstart : ∀ b ∈ comment.head?, b = commentByte)
    (h : ∀ b ∈ comment, b ≠ Bytes.newline) (htail : EndsLine tail) (number col : Nat) :
    scanFrom .gap ⟨number, col⟩ (comment ++ tail) = scanFrom .gap ⟨number, 1⟩ tail := by
  cases comment with
  | nil => exact scanFrom_gap_of_endsLine htail number col
  | cons b comment =>
    obtain rfl : b = commentByte := hstart b rfl
    exact scanFrom_comment (List.forall_mem_cons.mp h).2 htail number (col + 1)

/-- A line is its code and its comment. -/
theorem exists_comment (line : Bytes) :
    ∃ comment, line = codePart line ++ comment ∧ (∀ b ∈ codePart line, b ≠ commentByte) ∧
      ∀ b ∈ comment.head?, b = commentByte := by
  refine ⟨line.dropWhile (· != commentByte), List.takeWhile_append_dropWhile.symm, ?_, ?_⟩
  · intro b hb
    have hall : (codePart line).all (· != commentByte) = true := List.all_takeWhile
    exact bne_iff_ne.mp (List.all_eq_true.mp hall b hb)
  · intro b hb
    have hstop := List.head?_dropWhile_not (· != commentByte) line
    rw [hb] at hstop
    exact bne_eq_false_iff_eq.mp hstop

/-- What the scanner makes of a line. -/
theorem scanFrom_line {line tail : Bytes} (h : ∀ b ∈ line, b ≠ Bytes.newline)
    (htail : EndsLine tail) (number : Nat) :
    scanFrom .gap ⟨number, 1⟩ (line ++ tail)
      = (lineWords number line).map PlacedWord.scanned ++ scanFrom .gap ⟨number, 1⟩ tail := by
  obtain ⟨comment, hline, hcode, hstart⟩ := exists_comment line
  rw [hline] at h
  obtain ⟨hcodeLine, hcommentLine⟩ := List.forall_mem_append.mp h
  have hword : EndsWord (comment ++ tail) := by
    intro b hb
    cases comment with
    | nil =>
      rw [htail b hb]
      decide
    | cons c comment =>
      rw [hstart b hb]
      decide
  calc
    scanFrom .gap ⟨number, 1⟩ (line ++ tail)
      = scanFrom .gap ⟨number, 1⟩ (codePart line ++ (comment ++ tail)) := by
        rw [← List.append_assoc, ← hline]
    _ = (lineWords number line).map PlacedWord.scanned
          ++ scanFrom .gap ⟨number, 1 + (codePart line).leads⟩ (comment ++ tail) :=
        scanFrom_code (fun b hb => ⟨hcodeLine b hb, hcode b hb⟩) hword number []
    _ = (lineWords number line).map PlacedWord.scanned ++ scanFrom .gap ⟨number, 1⟩ tail := by
        rw [scanFrom_gap_comment hstart hcommentLine htail]

/-- What the scanner makes of several lines: the words of the reader. -/
theorem scanFrom_lines (source : Bytes) (number : Nat) :
    scanFrom .gap ⟨number, 1⟩ source
      = ((source.lines.zipIdx number).flatMap fun line => lineWords line.2 line.1).map
          PlacedWord.scanned := by
  rw [Bytes.lines, List.splitOn_eq_splitOnP]
  induction source using cut_induction (p := (· == Bytes.newline)) generalizing number with
  | last line hline =>
    have hbytes : ∀ b ∈ line, b ≠ Bytes.newline := fun b hb => beq_eq_false_iff_ne.mp (hline b hb)
    have hend : EndsLine [] := by rintro b ⟨⟩
    have hscan := scanFrom_line hbytes hend number
    rw [List.append_nil] at hscan
    rw [hscan, List.splitOnP_eq_singleton hline]
    simp [scanFrom]
  | cut line b rest hline hb ih =>
    have hbytes : ∀ b ∈ line, b ≠ Bytes.newline := fun b hb => beq_eq_false_iff_ne.mp (hline b hb)
    obtain rfl : b = Bytes.newline := beq_iff_eq.mp hb
    have hend : EndsLine (Bytes.newline :: rest) := by
      rintro b ⟨⟩
      rfl
    -- the line feed starts the next line at its first column, whatever this line held
    have hnext : scanFrom .gap ⟨number, 1⟩ (Bytes.newline :: rest)
        = scanFrom .gap ⟨number + 1, 1⟩ rest := rfl
    rw [scanFrom_line hbytes hend, hnext, ih,
      List.splitOnP_append_cons_of_forall_mem hline _ hb, List.zipIdx_cons, List.flatMap_cons,
      List.map_append]

/-- The scanner finds the words of the reader. -/
theorem scanWords_eq (source : Bytes) :
    scanWords source = (sourceWords source).map PlacedWord.scanned :=
  scanFrom_lines source 1

/-! ### Lead bytes and characters -/

namespace Bytes

open String (utf8EncodeChar)

theorem isLead_iff {b : UInt8} : isLead b = true ↔ b.toNat < 0x80 ∨ 0xBF < b.toNat := by
  rw [isLead, Bool.not_eq_true', Bool.eq_false_iff, Ne, isTail_iff]
  omega

/-- The encoding of a character begins with its only lead byte. -/
theorem leads_encode (c : Char) : leads (utf8EncodeChar c) = 1 := by
  have hlead : ∀ {b : UInt8}, b.toNat < 0x80 ∨ 0xBF < b.toNat → isLead b = true := isLead_iff.mpr
  have htail : ∀ {b : UInt8}, 0x80 ≤ b.toNat ∧ b.toNat ≤ 0xBF → ¬ isLead b = true := by
    intro b hb
    rw [isLead_iff]
    omega
  -- in every form the first byte lies outside the range of the bytes that continue it
  rcases exists_form c with ⟨a, h⟩ | ⟨a, b, h⟩ | ⟨a, b, d, h⟩ | ⟨a, b, d, e, h⟩
  · have ha : a.toNat < 0x80 := UInt8.lt_iff_toNat_lt.mp (single_iff.mpr h).1
    rw [h, leads, List.countP_cons_of_pos (hlead (.inl ha)), List.countP_nil]
  · have hrange := (pair?_eq_some.mp (pair?_iff.mpr h)).1
    rw [h, leads, List.countP_cons_of_pos (hlead (b := a) (by omega)),
      List.countP_cons_of_neg (htail (b := b) (by omega)), List.countP_nil]
  · have hrange := (triple?_eq_some.mp (triple?_iff.mpr h)).1
    rw [h, leads, List.countP_cons_of_pos (hlead (b := a) (by omega)),
      List.countP_cons_of_neg (htail (b := b) (by omega)),
      List.countP_cons_of_neg (htail (b := d) (by omega)), List.countP_nil]
  · have hrange := (quad?_eq_some.mp (quad?_iff.mpr h)).1
    rw [h, leads, List.countP_cons_of_pos (hlead (b := a) (by omega)),
      List.countP_cons_of_neg (htail (b := b) (by omega)),
      List.countP_cons_of_neg (htail (b := d) (by omega)),
      List.countP_cons_of_neg (htail (b := e) (by omega)), List.countP_nil]

theorem leads_ofChars (cs : List Char) : leads (ofChars cs) = cs.length := by
  induction cs with
  | nil => rfl
  | cons c cs ih =>
    show leads (utf8EncodeChar c ++ ofChars cs) = _
    rw [leads_append, leads_encode, ih, List.length_cons, Nat.add_comm]

/-- In well-formed text, the lead bytes count the characters. -/
theorem leads_eq_length_chars {text : Bytes} (h : text.isWellFormed = true) :
    text.leads = text.chars.length := by
  obtain ⟨cs, rfl⟩ := exists_ofChars h
  rw [leads_ofChars, chars, runes_ofChars, List.length_map, List.length_map]

theorem isWellFormed_ofChars (cs : List Char) : (ofChars cs).isWellFormed = true := by
  rw [isWellFormed, runes_ofChars, List.all_map]
  exact List.all_eq_true.mpr fun c _ => rfl

theorem isWellFormed_append {xs ys : Bytes} (hx : xs.isWellFormed = true)
    (hy : ys.isWellFormed = true) : (xs ++ ys).isWellFormed = true := by
  obtain ⟨cs, rfl⟩ := exists_ofChars hx
  obtain ⟨ds, rfl⟩ := exists_ofChars hy
  rw [← ofChars_append]
  exact isWellFormed_ofChars (cs ++ ds)

end Bytes

theorem isWellFormed_of_isLineBlank {b : UInt8} (h : isLineBlank b = true) :
    Bytes.isWellFormed [b] = true := by
  have hmem : b ∈ [0x20, 0x09, 0x0D, 0x0C, 0x0B] := List.contains_iff_mem.mp h
  simp only [List.mem_cons, List.not_mem_nil, or_false] at hmem
  rcases hmem with rfl | rfl | rfl | rfl | rfl <;> rfl

/-- Up to the first malformed word, what stands before a word is well-formed. -/
inductive Legible : List PlacedWord → Prop
  | nil : Legible []
  | cons {w : PlacedWord} {ws : List PlacedWord} (before : w.before.isWellFormed = true)
      (after : w.text.isWellFormed = true → Legible ws) : Legible (w :: ws)

namespace Legible

theorem append {xs ys : List PlacedWord} (hx : Legible xs) (hy : Legible ys) :
    Legible (xs ++ ys) := by
  induction hx with
  | nil => exact hy
  | cons before _ ih => exact .cons before ih

theorem pieceWords {done piece : Bytes} {number : Nat} {ws : List PlacedWord}
    (hdone : done.isWellFormed = true) (h : piece.isWellFormed = true → Legible ws) :
    Legible (pieceWords number done piece ++ ws) := by
  cases piece with
  | nil => exact h rfl
  | cons b piece => exact .cons hdone h

theorem wordsAfter {done code : Bytes} (hdone : done.isWellFormed = true) (number : Nat) :
    Legible (wordsAfter number done code) := by
  induction code using cut_induction (p := isLineBlank) generalizing done with
  | last piece hpiece =>
    rw [wordsAfter_last number done hpiece, ← List.append_nil (Polish.pieceWords ..)]
    exact pieceWords hdone fun _ => .nil
  | cut piece b rest hpiece hb ih =>
    rw [wordsAfter_cut number done hpiece hb]
    -- before the next word stand the old text, a word that is not refused, and a blank
    refine pieceWords hdone fun htext => ih ?_
    exact Bytes.isWellFormed_append (Bytes.isWellFormed_append hdone htext)
      (isWellFormed_of_isLineBlank hb)

theorem sourceWords (source : Bytes) : Legible (sourceWords source) := by
  unfold Polish.sourceWords
  generalize source.lines.zipIdx 1 = lines
  induction lines with
  | nil => exact .nil
  | cons line lines ih =>
    rw [List.flatMap_cons]
    exact append (wordsAfter rfl line.2) ih

end Legible

/-! ### Tokens -/

namespace PlacedWord

/-- Is the word refused? -/
def isMalformed (w : PlacedWord) : Bool := !w.text.isWellFormed

/-- The token of the word, if it is not refused. -/
def token (file : Bytes) (w : PlacedWord) : Token := ⟨w.text, w.span file⟩

/-- The scanner's start column is the reader's. -/
theorem start_scanned {w : PlacedWord} (hbefore : w.before.isWellFormed = true) :
    w.scanned.start = ⟨w.line, w.startCol⟩ := by
  rw [scanned, startCol, Bytes.leads_eq_length_chars hbefore]

theorem toToken_scanned {w : PlacedWord} (file : Bytes) (hbefore : w.before.isWellFormed = true)
    (htext : w.text.isWellFormed = true) : w.scanned.toToken file = .ok (w.token file) := by
  have hstop : w.scanned.stop = ⟨w.line, w.endCol⟩ := by
    rw [scanned, endCol, startCol, Bytes.leads_append, Bytes.leads_eq_length_chars hbefore,
      Bytes.leads_eq_length_chars htext, Nat.add_assoc]
  have hspan : w.scanned.span file = w.span file := by
    rw [Word.span, start_scanned hbefore, hstop, span]
  rw [Word.toToken, hspan]
  exact if_pos htext

theorem toToken_scanned_of_isMalformed {w : PlacedWord} (file : Bytes)
    (hbefore : w.before.isWellFormed = true) (htext : w.text.isWellFormed = false) :
    w.scanned.toToken file = .error ⟨.invalidText w.text, some (w.firstSpan file)⟩ := by
  have hspan : w.scanned.firstSpan file = w.firstSpan file := by
    rw [Word.firstSpan, start_scanned hbefore, firstSpan]
  rw [Word.toToken, hspan]
  exact if_neg (by rw [Bool.not_eq_true]; exact htext)

end PlacedWord

/-- What a reader makes of the words: their tokens, unless one of them is malformed. -/
def readTokens (file : Bytes) (ws : List PlacedWord) : Except Failure (List Token) :=
  match ws.find? PlacedWord.isMalformed with
  | some w => .error ⟨.invalidText w.text, some (w.firstSpan file)⟩
  | none => .ok (ws.map (PlacedWord.token file))

theorem readTokens_of_malformed {file : Bytes} {ws : List PlacedWord} {w : PlacedWord}
    (h : ws.find? PlacedWord.isMalformed = some w) :
    readTokens file ws = .error ⟨.invalidText w.text, some (w.firstSpan file)⟩ := by
  rw [readTokens, h]

theorem readTokens_of_none {file : Bytes} {ws : List PlacedWord}
    (h : ws.find? PlacedWord.isMalformed = none) :
    readTokens file ws = .ok (ws.map (PlacedWord.token file)) := by
  rw [readTokens, h]

/-- A well-formed word is read in front of the others. -/
theorem readTokens_cons {file : Bytes} {w : PlacedWord} (h : w.text.isWellFormed = true)
    (ws : List PlacedWord) :
    readTokens file (w :: ws) = (readTokens file ws).map (w.token file :: ·) := by
  have hfind : (w :: ws).find? PlacedWord.isMalformed = ws.find? PlacedWord.isMalformed := by
    refine List.find?_cons_of_neg ?_
    rw [PlacedWord.isMalformed, h]
    decide
  cases hrest : ws.find? PlacedWord.isMalformed with
  | some v =>
    rw [readTokens_of_malformed (hfind.trans hrest), readTokens_of_malformed hrest, Except.map]
  | none =>
    rw [readTokens_of_none (hfind.trans hrest), readTokens_of_none hrest, Except.map, List.map_cons]

/-- Up to the first malformed word the scanner's columns are the reader's, and after it no token is
made. -/
theorem Legible.mapM_toToken {ws : List PlacedWord} (h : Legible ws) (file : Bytes) :
    (ws.map PlacedWord.scanned).mapM (Word.toToken file) = readTokens file ws := by
  induction h with
  | nil => rfl
  | @cons w ws before after ih =>
    rw [List.map_cons, List.mapM_cons]
    by_cases htext : w.text.isWellFormed = true
    · rw [PlacedWord.toToken_scanned file before htext, Result.ok_bind, ih htext,
        readTokens_cons htext]
      rfl
    · have hmalformed : w.isMalformed = true := by
        rw [PlacedWord.isMalformed, Bool.eq_false_iff.mpr htext]
        rfl
      rw [PlacedWord.toToken_scanned_of_isMalformed file before (Bool.eq_false_iff.mpr htext),
        Result.error_bind, readTokens_of_malformed (List.find?_cons_of_pos hmalformed)]

/-- The scanner makes of a source what a reader makes of its words. -/
theorem tokenize_eq_readTokens (file source : Bytes) :
    tokenize file source = readTokens file (sourceWords source) := by
  rw [tokenize, scanWords_eq]
  exact (Legible.sourceWords source).mapM_toToken file

/-- The words of a source are those of the code of its lines. -/
theorem sourceWords_eq_code (source : Bytes) :
    sourceWords source
      = ((source.lines.map codePart).zipIdx 1).flatMap fun code => wordsAfter code.2 [] code.1 := by
  rw [sourceWords, List.zipIdx_map, List.flatMap_map]
  rfl

/-- The scanner equals the reading of a source line by line: if every word is well-formed, the
tokens are these words with their places and kinds; otherwise the first malformed word is refused
where it starts. Two sources that differ in their comments only, whatever bytes these hold, have the
same tokens at the same places, or fail alike. -/
theorem tokenize_eq_sourceWords (file source : Bytes) :
    ((∀ w ∈ sourceWords source, w.text.isWellFormed = true) →
      ∃ tokens, tokenize file source = .ok tokens ∧
        tokens.map (fun t => (t.text, t.kind, t.span))
          = (sourceWords source).map fun w =>
              (w.text, classify w.text,
                ⟨file, w.line, 1 + w.before.chars.length, w.line,
                  1 + w.before.chars.length + w.text.chars.length⟩)) ∧
    ((¬ ∀ w ∈ sourceWords source, w.text.isWellFormed = true) →
      ∃ before w after, sourceWords source = before ++ w :: after ∧
        (∀ v ∈ before, v.text.isWellFormed = true) ∧ w.text.isWellFormed = false ∧
        ∃ f, tokenize file source = .error f ∧ f.code = .lex ∧
          f.span = some ⟨file, w.line, 1 + w.before.chars.length, w.line,
            1 + w.before.chars.length + 1⟩) ∧
    ∀ other : Bytes, other.lines.map codePart = source.lines.map codePart →
      tokenize file other = tokenize file source := by
  have hread := tokenize_eq_readTokens file source
  refine ⟨?_, ?_, ?_⟩
  · intro hall
    have hnone : (sourceWords source).find? PlacedWord.isMalformed = none := by
      rw [List.find?_eq_none]
      intro w hw
      rw [PlacedWord.isMalformed, hall w hw]
      decide
    rw [readTokens_of_none hnone] at hread
    refine ⟨_, hread, ?_⟩
    rw [List.map_map]
    rfl
  · intro hsome
    cases hfind : (sourceWords source).find? PlacedWord.isMalformed with
    | none =>
      refine absurd (fun w hw => ?_) hsome
      simpa [PlacedWord.isMalformed] using List.find?_eq_none.mp hfind w hw
    | some w =>
      obtain ⟨hw, before, after, hwords, hbefore⟩ := List.find?_eq_some_iff_append.mp hfind
      rw [readTokens_of_malformed hfind] at hread
      refine ⟨before, w, after, hwords, fun v hv => ?_, ?_, _, hread, rfl, rfl⟩
      · simpa [PlacedWord.isMalformed] using hbefore v hv
      · simpa [PlacedWord.isMalformed] using hw
  · intro other hcode
    rw [tokenize_eq_readTokens, tokenize_eq_readTokens, sourceWords_eq_code, hcode,
      ← sourceWords_eq_code]

/-- A comment of bytes outside any character, glued to a name of two characters, changes nothing. -/
theorem tokenize_eq_sourceWords_comment :
    tokenize "f" (("@ " : Bytes) ++ "né" ++ [commentByte, 0xFF, 0x80] ++ "\n1")
        = tokenize "f" "@ né\n1" ∧
      ((tokenize "f" "@ né\n1").map fun tokens => tokens.map Token.span)
        = .ok [⟨"f", 1, 1, 1, 2⟩, ⟨"f", 1, 3, 1, 5⟩, ⟨"f", 2, 1, 2, 2⟩] :=
  ⟨(tokenize_eq_sourceWords "f" "@ né\n1").2.2 _ (by decide), rfl⟩

end Polish
