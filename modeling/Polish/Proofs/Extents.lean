import Mathlib.Data.List.Induction
import Mathlib.Data.Prod.Lex
import Polish.Proofs.Joining

/-!
# A node's place is its text

The place of a node starts where its first token starts and ends where its last token ends. So the
text cut out of the source between the two has the tokens of the node and no others, whatever
comments, line breaks and characters of several bytes stand in between, and reading it gives the
node back.

A place counts lines and characters, and a scanner counts line feeds and lead bytes. Up to the end
of a token of a source that has tokens, what stands before a place on its line is well-formed, and
there the two counts agree. After a comment they need not, but no token starts or ends there.

1. `Bytes.before`, `Span.cut`: the text before a place, and the text of a range.
2. `placeAfter`, `before_placeAfter`: the place that the scanner has come to after some text.
3. `Upto`: the scanner has read this text and is in this state, and no malformed word was read;
   `scanFrom_start`, `scanFrom_stop`: a scan taken apart where a word starts and where it ends.
4. `sourceTexts_cut`: the text of a run of tokens has the texts of these tokens.
5. `Reads.exists_infix`, `ReadsProgram.exists_infix`: each node has its run of tokens.
6. `Node.children`, `Node.IsOrderly`: the ranges of children follow each other in their parent's.
7. `Program.spans_delimit_texts`: what is cut out at a node is read as the node.
-/

namespace Polish

/-! ### The text of a range -/

/-- The text before a place: the lines before its line, with their line feeds, and the characters
before its column. Lines and columns count from one. -/
def Bytes.before (text : Bytes) (line col : Int) : Bytes :=
  (text.lines.take (line - 1).toNat).flatMap (· ++ [newline])
    ++ ((text.lines.getD (line - 1).toNat []).runes.take (col - 1).toNat).flatMap Rune.bytes

/-- The text between the start and the end of a range. -/
def Span.cut (s : Span) (text : Bytes) : Bytes :=
  (text.before s.endLine s.endCol).drop (text.before s.startLine s.startCol).length

/-! ### The place after some text -/

/-- The place that a scanner comes to. -/
def placeAfter (front : Bytes) : Position := front.foldl Position.advance .start

/-- What a text holds after its last line feed. -/
def lastLine (front : Bytes) : Bytes :=
  front.foldl (fun line b => if b = Bytes.newline then [] else line ++ [b]) []

theorem placeAfter_concat (front : Bytes) (b : UInt8) :
    placeAfter (front ++ [b]) = (placeAfter front).advance b :=
  List.foldl_concat ..

theorem lastLine_concat (front : Bytes) (b : UInt8) :
    lastLine (front ++ [b]) = if b = Bytes.newline then [] else lastLine front ++ [b] :=
  List.foldl_concat ..

/-- A text without line feeds goes on with the last line. -/
theorem lastLine_append (front : Bytes) {text : Bytes} (h : ∀ b ∈ text, b ≠ Bytes.newline) :
    lastLine (front ++ text) = lastLine front ++ text := by
  induction text using List.reverseRecOn with
  | nil => rw [List.append_nil, List.append_nil]
  | append_singleton text b ih =>
    obtain ⟨htext, hb⟩ := List.forall_mem_append.mp h
    rw [← List.append_assoc, lastLine_concat, if_neg (hb b List.mem_cons_self), ih htext,
      List.append_assoc]

/-- A text is its complete lines and its last line, and these give the place after it. -/
theorem exists_lines (front : Bytes) :
    ∃ complete : List Bytes, front = complete.flatMap (· ++ [Bytes.newline]) ++ lastLine front ∧
      (∀ line ∈ complete, Bytes.newline ∉ line) ∧ Bytes.newline ∉ lastLine front ∧
      placeAfter front = ⟨1 + complete.length, 1 + (lastLine front).leads⟩ := by
  induction front using List.reverseRecOn with
  | nil => exact ⟨[], rfl, by simp, by simp [lastLine], rfl⟩
  | append_singleton front b ih =>
    obtain ⟨complete, hfront, hlines, hlast, hplace⟩ := ih
    rw [lastLine_concat, placeAfter_concat, hplace]
    by_cases hb : b = Bytes.newline
    · refine ⟨complete ++ [lastLine front], ?_, ?_, ?_, ?_⟩
      · rw [if_pos hb, hb, List.flatMap_append, List.flatMap_singleton, List.append_nil,
          ← List.append_assoc, ← hfront]
      · exact List.forall_mem_append.mpr ⟨hlines, List.forall_mem_singleton.mpr hlast⟩
      · rw [if_pos hb]
        exact List.not_mem_nil
      · rw [if_pos hb, Position.advance, if_pos hb, List.length_append]
        rfl
    · refine ⟨complete, ?_, hlines, ?_, ?_⟩
      · rw [if_neg hb, ← List.append_assoc, ← hfront]
      · rw [if_neg hb, List.mem_append, List.mem_singleton]
        exact not_or.mpr ⟨hlast, Ne.symm hb⟩
      · rw [if_neg hb, Position.advance_of_ne_newline hb]

/-- A text without line feeds is the beginning of the first line. -/
theorem Bytes.exists_lines_append {line : Bytes} (h : newline ∉ line) (rest : Bytes) :
    ∃ after more, lines (line ++ rest) = (line ++ after) :: more := by
  have hjoin : ∀ piece : Bytes, (∀ b ∈ piece, (b == newline) = false) →
      ∀ b ∈ line ++ piece, (b == newline) = false := by
    intro piece hpiece b hb
    rcases List.mem_append.mp hb with hb | hb
    · rw [beq_eq_false_iff_ne]
      rintro rfl
      exact h hb
    · exact hpiece b hb
  simp only [lines, List.splitOn_eq_splitOnP]
  induction rest using cut_induction (p := (· == newline)) with
  | last piece hpiece => exact ⟨piece, [], List.splitOnP_eq_singleton (hjoin piece hpiece)⟩
  | cut piece b rest hpiece hb _ =>
    rw [← List.append_assoc, List.splitOnP_append_cons_of_forall_mem (hjoin piece hpiece) b hb]
    exact ⟨piece, _, rfl⟩

/-- The reading of a text that starts with the encoding of characters. -/
theorem Bytes.runes_ofChars_append (cs : List Char) (rest : Bytes) :
    runes (ofChars cs ++ rest) = cs.map .char ++ runes rest := by
  induction cs with
  | nil => rfl
  | cons c cs ih =>
    have hcons : ofChars (c :: cs) ++ rest
        = String.utf8EncodeChar c ++ (ofChars cs ++ rest) := by simp [ofChars]
    rw [hcons, runes_encode_append, ih]
    rfl

/-- If the last line of a text is well-formed, the text is what stands before the place that it
leads to. -/
theorem before_placeAfter {front : Bytes} (h : (lastLine front).isWellFormed = true)
    (back : Bytes) :
    (front ++ back).before (placeAfter front).line (placeAfter front).col = front := by
  obtain ⟨complete, hfront, hlines, hlast, hplace⟩ := exists_lines front
  obtain ⟨cs, hcs⟩ := Bytes.exists_ofChars h
  -- the last line is the beginning of a line of the whole text
  have hcut : (front ++ back).lines = complete ++ Bytes.lines (lastLine front ++ back) := by
    conv_lhs => rw [hfront, List.append_assoc]
    exact Bytes.lines_append complete hlines _
  obtain ⟨after, more, hrest⟩ := Bytes.exists_lines_append hlast back
  have hline : (((1 + complete.length : Nat) : Int) - 1).toNat = complete.length := by omega
  have hcol : (((1 + cs.length : Nat) : Int) - 1).toNat = cs.length := by omega
  rw [hplace, Bytes.before, hcut, hrest]
  dsimp only
  rw [hcs, Bytes.leads_ofChars, hline, hcol, List.take_left, List.getD_eq_getElem?_getD,
    List.getElem?_append_right (Nat.le_refl _), Nat.sub_self, List.getElem?_cons_zero,
    Option.getD_some, Bytes.runes_ofChars_append, List.take_left' (List.length_map _)]
  conv_rhs => rw [hfront, hcs]
  congr 1
  rw [List.flatMap_map]
  rfl

/-! ### Taking a scan apart -/

/-- The scanner is in this state after this text, and no malformed word was read. Inside a comment
nothing is known of the text on the line. -/
inductive Upto : Reading → Bytes → Prop where
  | gap {front : Bytes} (hline : (lastLine front).isWellFormed = true) : Upto .gap front
  | comment {front : Bytes} : Upto .comment front
  | word {front read : Bytes} (hline : (lastLine front).isWellFormed = true)
      (hread : ∀ b ∈ read, b ≠ Bytes.newline) :
      Upto (.word (placeAfter front) read) (front ++ read.reverse)

namespace Upto

variable {front read : Bytes} {b : UInt8} {start : Position}

/-- The first byte of a word. -/
theorem enter (h : Upto .gap front) (hb : isWordByte b = true) :
    Upto (.word (placeAfter front) [b]) (front ++ [b]) := by
  cases h with
  | gap hline =>
    show Upto _ (front ++ [b].reverse)
    exact word hline (List.forall_mem_singleton.mpr (isWordByte_iff.mp hb).2.1)

/-- A byte more of a word. -/
theorem stay (h : Upto (.word start read) front) (hb : isWordByte b = true) :
    Upto (.word start (b :: read)) (front ++ [b]) := by
  cases h with
  | @word front _ hline hread =>
    rw [List.append_assoc, ← List.reverse_cons]
    exact word hline (List.forall_mem_cons.mpr ⟨(isWordByte_iff.mp hb).2.1, hread⟩)

/-- After a well-formed word the line is well-formed. -/
theorem leave (h : Upto (.word start read) front) (hread : Bytes.isWellFormed read.reverse = true) :
    Upto .gap front := by
  cases h with
  | word hline hbytes =>
    refine gap ?_
    rw [lastLine_append _ fun b hb => hbytes b (List.mem_reverse.mp hb)]
    exact Bytes.isWellFormed_append hline hread

theorem newline (front : Bytes) : Upto .gap (front ++ [Bytes.newline]) := by
  refine gap ?_
  rw [lastLine_concat, if_pos rfl]
  rfl

/-- A byte between words: a blank, or the beginning of a comment. -/
theorem skip (h : Upto .gap front) (hb : isWordByte b = false) :
    Upto (if b = commentByte then .comment else .gap) (front ++ [b]) := by
  split
  · exact comment
  · next hcomment =>
    by_cases hnewline : b = Bytes.newline
    · rw [hnewline]
      exact newline front
    · have hblank : isLineBlank b = true := by
        rw [← Bool.not_eq_false]
        intro hnot
        rw [isWordByte_iff.mpr ⟨hnot, hnewline, hcomment⟩] at hb
        cases hb
      cases h with
      | gap hline =>
        refine gap ?_
        rw [lastLine_concat, if_neg hnewline]
        exact Bytes.isWellFormed_append hline (isWellFormed_of_isLineBlank hblank)

/-- A byte of a comment, or its end. -/
theorem comment_step (front : Bytes) (b : UInt8) :
    Upto (if b = Bytes.newline then .gap else .comment) (front ++ [b]) := by
  split
  · next hb =>
    rw [hb]
    exact newline front
  · exact comment

end Upto

/-- A word that has started keeps its start. -/
theorem start_of_scanFrom_word {start p : Position} {read bs : Bytes} {w : Word} {ws : List Word}
    (h : scanFrom (.word start read) p bs = w :: ws) : w.start = start := by
  induction bs generalizing read p with
  | nil =>
    cases h
    rfl
  | cons b bs ih =>
    rw [scanFrom] at h
    split at h
    · exact ih h
    · cases h
      rfl

section Scan

variable {state : Reading} {front bs : Bytes} {xs ys : List Word} {w : Word}

/-- **Where a word starts.** The words from some word on are those of the rest of the text from the
start of that word. The induction is on the text; `Upto` carries what was read. -/
theorem scanFrom_start (hupto : Upto state front)
    (hstate : ∀ start read, state = .word start read → xs ≠ [])
    (hxs : ∀ v ∈ xs, v.text.isWellFormed = true)
    (h : scanFrom state (placeAfter front) bs = xs ++ w :: ys) :
    ∃ skipped rest, bs = skipped ++ rest ∧ w.start = placeAfter (front ++ skipped) ∧
      Upto .gap (front ++ skipped) ∧
      scanFrom .gap (placeAfter (front ++ skipped)) rest = w :: ys := by
  induction bs generalizing state front xs with
  | nil =>
    cases state with
    | gap | comment => simp [scanFrom] at h
    | word start read =>
      -- the only word has started before
      obtain ⟨x, xs, rfl⟩ := List.exists_cons_of_ne_nil (hstate start read rfl)
      simp [scanFrom] at h
  | cons b bs ih =>
    -- the text after `b` is taken apart by the induction hypothesis
    have hnext : ∀ {state' : Reading} {xs' : List Word}, Upto state' (front ++ [b]) →
        (∀ start read, state' = .word start read → xs' ≠ []) →
        (∀ v ∈ xs', v.text.isWellFormed = true) →
        scanFrom state' ((placeAfter front).advance b) bs = xs' ++ w :: ys →
        ∃ skipped rest, b :: bs = skipped ++ rest ∧ w.start = placeAfter (front ++ skipped) ∧
          Upto .gap (front ++ skipped) ∧
          scanFrom .gap (placeAfter (front ++ skipped)) rest = w :: ys := by
      intro state' xs' hupto' hstate' hxs' hscan
      rw [← placeAfter_concat] at hscan
      obtain ⟨skipped, rest, rfl, hrest⟩ := ih hupto' hstate' hxs' hscan
      rw [List.append_assoc] at hrest
      exact ⟨b :: skipped, rest, rfl, hrest⟩
    have hskip : ∀ start read, (if b = commentByte then .comment else Reading.gap)
        ≠ .word start read := by
      intro start read hword
      split at hword
      · cases hword
      · cases hword
    cases state with
    | gap =>
      have hscan := h
      rw [scanFrom] at hscan
      split at hscan
      · next hb =>
        by_cases hnil : xs = []
        · subst hnil
          refine ⟨[], b :: bs, rfl, ?_, ?_, ?_⟩
          · rw [List.append_nil]
            exact start_of_scanFrom_word hscan
          · rw [List.append_nil]
            exact hupto
          · rw [List.append_nil]
            exact h
        · exact hnext (hupto.enter hb) (fun _ _ _ => hnil) hxs hscan
      · next hb =>
        exact hnext (hupto.skip (Bool.eq_false_iff.mpr hb))
          (fun start read heq => absurd heq (hskip start read)) hxs hscan
    | comment =>
      rw [scanFrom] at h
      refine hnext (Upto.comment_step front b) ?_ hxs h
      intro start read hword
      split at hword
      · cases hword
      · cases hword
    | word start read =>
      have hne := hstate start read rfl
      rw [scanFrom] at h
      split at h
      · next hb => exact hnext (hupto.stay hb) (fun _ _ _ => hne) hxs h
      · next hb =>
        obtain ⟨x, xs, rfl⟩ := List.exists_cons_of_ne_nil hne
        obtain ⟨rfl, htail⟩ := List.cons.inj h
        obtain ⟨hread, hxs⟩ := List.forall_mem_cons.mp hxs
        exact hnext ((hupto.leave hread).skip (Bool.eq_false_iff.mpr hb))
          (fun start read heq => absurd heq (hskip start read)) hxs htail

/-- **Where a word ends.** The words up to some word are those of the text up to the end of that
word. -/
theorem scanFrom_stop (hupto : Upto state front)
    (hxs : ∀ v ∈ xs ++ [w], v.text.isWellFormed = true)
    (h : scanFrom state (placeAfter front) bs = xs ++ w :: ys) :
    ∃ text rest, bs = text ++ rest ∧ w.stop = placeAfter (front ++ text) ∧
      Upto .gap (front ++ text) ∧ scanFrom state (placeAfter front) text = xs ++ [w] := by
  induction bs generalizing state front xs with
  | nil =>
    refine ⟨[], [], rfl, ?_⟩
    cases state with
    | gap | comment => simp [scanFrom] at h
    | word start read =>
      cases xs with
      | nil =>
        obtain ⟨rfl, -⟩ := List.cons.inj h
        rw [List.append_nil]
        exact ⟨rfl, hupto.leave (hxs _ List.mem_cons_self), rfl⟩
      | cons x xs => simp [scanFrom] at h
  | cons b bs ih =>
    -- `b` completes the words `out`, and the text after it is taken apart by the hypothesis
    have hnext : ∀ (state' : Reading) (out xs' : List Word), Upto state' (front ++ [b]) →
        (∀ text, scanFrom state (placeAfter front) (b :: text)
          = out ++ scanFrom state' ((placeAfter front).advance b) text) → xs = out ++ xs' →
        ∃ text rest, b :: bs = text ++ rest ∧ w.stop = placeAfter (front ++ text) ∧
          Upto .gap (front ++ text) ∧ scanFrom state (placeAfter front) text = xs ++ [w] := by
      rintro state' out xs' hupto' hstep rfl
      rw [List.append_assoc] at hxs
      rw [hstep, List.append_assoc, ← placeAfter_concat] at h
      obtain ⟨text, rest, rfl, hstop, hend, hscan⟩ :=
        ih hupto' (List.forall_mem_append.mp hxs).2 (List.append_cancel_left h)
      rw [List.append_assoc] at hstop hend
      refine ⟨b :: text, rest, rfl, hstop, hend, ?_⟩
      rw [hstep, ← placeAfter_concat, hscan, List.append_assoc]
    cases state with
    | gap =>
      by_cases hb : isWordByte b = true
      · refine hnext _ [] xs (hupto.enter hb) (fun text => ?_) rfl
        rw [scanFrom, if_pos hb, List.nil_append]
      · refine hnext _ [] xs (hupto.skip (Bool.eq_false_iff.mpr hb)) (fun text => ?_) rfl
        rw [scanFrom, if_neg hb, List.nil_append]
    | comment => exact hnext _ [] xs (Upto.comment_step front b) (fun text => rfl) rfl
    | word start read =>
      by_cases hb : isWordByte b = true
      · refine hnext _ [] xs (hupto.stay hb) (fun text => ?_) rfl
        rw [scanFrom, if_pos hb, List.nil_append]
      · have hstep : ∀ text, scanFrom (.word start read) (placeAfter front) (b :: text)
            = [⟨read.reverse, start, placeAfter front⟩]
              ++ scanFrom (if b = commentByte then .comment else .gap)
                ((placeAfter front).advance b) text := by
          intro text
          rw [scanFrom, if_neg hb, List.singleton_append]
        cases xs with
        | nil =>
          -- the word ends before `b`
          obtain ⟨rfl, -⟩ := List.cons.inj ((hstep bs).symm.trans h)
          refine ⟨[], b :: bs, rfl, ?_⟩
          rw [List.append_nil]
          exact ⟨rfl, hupto.leave (hxs _ List.mem_cons_self), rfl⟩
        | cons x xs =>
          obtain ⟨rfl, -⟩ := List.cons.inj ((hstep bs).symm.trans h)
          have hgap := hupto.leave (hxs _ List.mem_cons_self)
          exact hnext _ _ xs (hgap.skip (Bool.eq_false_iff.mpr hb)) hstep rfl

end Scan

/-! ### The text of a run of tokens -/

/-- The texts of words do not depend on where the scanner starts. -/
theorem map_text_scanFrom (p q : Position) (bs : Bytes) :
    (scanFrom .gap p bs).map Word.text = (scanFrom .gap q bs).map Word.text ∧
    (scanFrom .comment p bs).map Word.text = (scanFrom .comment q bs).map Word.text ∧
    ∀ start start' read, (scanFrom (.word start read) p bs).map Word.text
      = (scanFrom (.word start' read) q bs).map Word.text := by
  induction bs generalizing p q with
  | nil => exact ⟨rfl, rfl, fun _ _ _ => rfl⟩
  | cons b bs ih =>
    obtain ⟨hgap, hcomment, hword⟩ := ih (p.advance b) (q.advance b)
    refine ⟨?_, ?_, fun start start' read => ?_⟩
    · simp only [scanFrom]
      split
      · exact hword p q [b]
      · split
        · exact hcomment
        · exact hgap
    · simp only [scanFrom]
      split
      · exact hgap
      · exact hcomment
    · simp only [scanFrom]
      split
      · exact hword start start' (b :: read)
      · split
        · exact congrArg (read.reverse :: ·) hcomment
        · exact congrArg (read.reverse :: ·) hgap

theorem sourceTexts_eq_scanFrom (p : Position) (text : Bytes) :
    sourceTexts text = (scanFrom .gap p text).map Word.text := by
  have hscan : (scanWords text).map Word.text = sourceTexts text := by
    rw [scanWords_eq, List.map_map, ← map_text_sourceWords]
    rfl
  rw [← hscan]
  exact (map_text_scanFrom .start p text).1

/-- The tokens of a source are the words that the scanner finds. -/
theorem tokenize_eq_map {file source : Bytes} {ts : List Token}
    (h : tokenize file source = .ok ts) :
    (∀ w ∈ scanWords source, w.text.isWellFormed = true) ∧
      ts = (scanWords source).map fun w => ⟨w.text, w.span file⟩ := by
  rw [tokenize] at h
  generalize scanWords source = ws at h
  induction ws generalizing ts with
  | nil =>
    cases h
    exact ⟨by simp, rfl⟩
  | cons w ws ih =>
    obtain ⟨t, ts, rfl, hw, hws⟩ := Result.mapM_eq_ok_cons.mp h
    obtain ⟨hformed, rfl⟩ := ih hws
    rw [Word.toToken] at hw
    split at hw
    · next htext =>
      cases hw
      exact ⟨List.forall_mem_cons.mpr ⟨htext, hformed⟩, rfl⟩
    · cases hw

/-- A run of words is scanned from a piece of the source that starts and ends with it. -/
theorem exists_piece {source : Bytes} {us ws zs : List Word} {first last : Word}
    (hformed : ∀ w ∈ scanWords source, w.text.isWellFormed = true)
    (hwords : scanWords source = us ++ ws ++ zs) (hfirst : ws.head? = some first)
    (hlast : ws.getLast? = some last) :
    ∃ front piece back, source = front ++ piece ++ back ∧
      first.start = placeAfter front ∧ (lastLine front).isWellFormed = true ∧
      last.stop = placeAfter (front ++ piece) ∧
      (lastLine (front ++ piece)).isWellFormed = true ∧
      scanFrom .gap (placeAfter front) piece = ws := by
  obtain ⟨more, rfl⟩ := List.head?_eq_some_iff.mp hfirst
  obtain ⟨init, hinit⟩ := List.getLast?_eq_some_iff.mp hlast
  rw [hwords, List.append_assoc, List.forall_mem_append] at hformed
  rw [List.append_assoc, List.cons_append] at hwords
  -- first the text before the run is taken off, then the text after it
  have hnothing : Upto .gap [] := .gap rfl
  obtain ⟨front, rest, rfl, hstart, hupto, hrest⟩ :=
    scanFrom_start hnothing nofun hformed.1 hwords
  rw [← List.cons_append, hinit, List.append_assoc] at hrest
  have hrun : ∀ w ∈ init ++ [last], w.text.isWellFormed = true := by
    rw [← hinit]
    exact (List.forall_mem_append.mp hformed.2).1
  obtain ⟨piece, back, rfl, hstop, hend, hpiece⟩ := scanFrom_stop hupto hrun hrest
  refine ⟨front, piece, back, (List.append_assoc ..).symm, hstart, ?_, hstop, ?_, ?_⟩
  · cases hupto
    assumption
  · cases hend
    assumption
  · rw [hinit]
    exact hpiece

/-- **Runs of tokens.** The text between the start of a token and the end of a later one has the
texts of the tokens from the one to the other. -/
theorem sourceTexts_cut {file source : Bytes} {ts part : List Token}
    (h : tokenize file source = .ok ts) (hpart : part <:+: ts) (hne : part ≠ []) :
    sourceTexts ((tokensSpan part).cut source) = Token.texts part := by
  obtain ⟨hformed, rfl⟩ := tokenize_eq_map h
  obtain ⟨xs, zs, hts⟩ := hpart
  obtain ⟨ws', zs', hwords, hws, rfl⟩ := List.map_eq_append_iff.mp hts.symm
  obtain ⟨us, ws, rfl, rfl, rfl⟩ := List.map_eq_append_iff.mp hws
  cases ws with
  | nil => exact absurd rfl hne
  | cons first more =>
    obtain ⟨last, hlast⟩ : ∃ last, (first :: more).getLast? = some last :=
      ⟨_, List.getLast?_eq_some_getLast (by simp)⟩
    obtain ⟨front, piece, back, rfl, hstart, hfront, hstop, hpiece, hscan⟩ :=
      exists_piece hformed hwords rfl hlast
    have hspan : tokensSpan ((first :: more).map fun w => ⟨w.text, w.span file⟩)
        = (first.span file).through (last.span file) := by
      have htoken : ((first :: more).map fun w => (⟨w.text, w.span file⟩ : Token)).getLast?
          = some ⟨last.text, last.span file⟩ := by
        rw [List.getLast?_map, hlast]
        rfl
      exact tokensSpan_eq_through htoken
    have hcut : ((first.span file).through (last.span file)).cut (front ++ piece ++ back)
        = piece := by
      show List.drop (Bytes.before _ first.start.line first.start.col).length
        (Bytes.before _ last.stop.line last.stop.col) = piece
      rw [hstart, hstop, before_placeAfter hpiece, List.append_assoc, before_placeAfter hfront,
        List.drop_left]
    rw [hspan, hcut, sourceTexts_eq_scanFrom (placeAfter front), hscan, Token.texts, List.map_map]
    rfl

/-! ### The tokens of a node -/

theorem Reads.ne_nil {ts : List Token} {e : Expr} (h : Reads ts e) : ts ≠ [] := by
  cases h <;> nofun

theorem Reads.span_eq {ts : List Token} {e : Expr} (h : Reads ts e) : e.span = tokensSpan ts := by
  cases h <;> rfl

/-- Every node of an expression is spelled by a run of its tokens. -/
theorem Reads.exists_infix {ts : List Token} {e : Expr} (h : Reads ts e) :
    ∀ x ∈ e.nodes, ∃ part, part <:+: ts ∧ Reads part x := by
  induction h with
  | var hkind =>
    intro x hx
    rw [List.mem_singleton.mp hx]
    exact ⟨_, List.infix_rfl, .var hkind⟩
  | const hkind hvalue =>
    intro x hx
    rw [List.mem_singleton.mp hx]
    exact ⟨_, List.infix_rfl, .const hkind hvalue⟩
  | @binary t _ ls rs l r hkind hl hr ihl ihr =>
    intro x hx
    rcases List.mem_cons.mp hx with rfl | hx
    · exact ⟨_, List.infix_rfl, .binary hkind hl hr⟩
    · rcases List.mem_append.mp hx with hx | hx
      · obtain ⟨part, hpart, hreads⟩ := ihl x hx
        exact ⟨part, (hpart.trans ⟨[], rs, rfl⟩).trans (List.suffix_cons t _).isInfix, hreads⟩
      · obtain ⟨part, hpart, hreads⟩ := ihr x hx
        exact ⟨part, (hpart.trans (List.suffix_append ls rs).isInfix).trans
          (List.suffix_cons t _).isInfix, hreads⟩
  | @unary t _ ts e hkind he ih =>
    intro x hx
    rcases List.mem_cons.mp hx with rfl | hx
    · exact ⟨_, List.infix_rfl, .unary hkind he⟩
    · obtain ⟨part, hpart, hreads⟩ := ih x hx
      exact ⟨part, hpart.trans (List.suffix_cons t ts).isInfix, hreads⟩

namespace ReadsStatement

variable {ts : List Token} {a : Action}

theorem ne_nil (h : ReadsStatement ts a) : ts ≠ [] := by
  cases h <;> nofun

theorem span_eq (h : ReadsStatement ts a) : a.span = tokensSpan ts := by
  cases h <;> rfl

/-- The expressions in a statement are spelled by runs of its tokens. -/
theorem exists_infix (h : ReadsStatement ts a) :
    ∀ x ∈ a.nodes, ∃ part, part <:+: ts ∧ Reads part x := by
  intro x hx
  cases h with
  | @assign m y ts e _ _ he =>
    obtain ⟨part, hpart, hreads⟩ := he.exists_infix x hx
    exact ⟨part, hpart.trans (List.suffix_append [m, y] ts).isInfix, hreads⟩
  | @print m ts e _ he =>
    obtain ⟨part, hpart, hreads⟩ := he.exists_infix x hx
    exact ⟨part, hpart.trans (List.suffix_cons m ts).isInfix, hreads⟩

end ReadsStatement

/-- Every statement of a program is spelled by a run of its tokens. -/
theorem ReadsProgram.exists_infix {ts : List Token} {as : List Action} (h : ReadsProgram ts as) :
    ∀ a ∈ as, ∃ part, part <:+: ts ∧ ReadsStatement part a := by
  induction h with
  | nil => simp
  | @cons s ts a as hs _ ih =>
    intro b hb
    rcases List.mem_cons.mp hb with rfl | hb
    · exact ⟨s, ⟨[], ts, rfl⟩, hs⟩
    · obtain ⟨part, hpart, hreads⟩ := ih b hb
      exact ⟨part, hpart.trans (List.suffix_append s ts).isInfix, hreads⟩

/-! ### The order of places -/

namespace Span

/-- The line and the column where the span ends. -/
def stop (s : Span) : Int × Int := (s.endLine, s.endCol)

/-- The span ends where the other starts, or before. -/
def EndsBefore (s t : Span) : Prop := toLex s.stop ≤ toLex t.start

/-- The span lies in the other. -/
def Within (s t : Span) : Prop := toLex t.start ≤ toLex s.start ∧ toLex s.stop ≤ toLex t.stop

end Span

/-- Each token ends before those after it start. -/
structure InOrder (ts : List Token) : Prop where
  ends : ts.Pairwise fun t u => t.span.EndsBefore u.span
  forward : ∀ t ∈ ts, toLex t.span.start ≤ toLex t.span.stop

namespace InOrder

variable {ts part : List Token}

theorem of_infix (h : InOrder ts) (hpart : part <:+: ts) : InOrder part :=
  ⟨h.ends.sublist hpart.sublist, fun t ht => h.forward t (hpart.subset ht)⟩

theorem start_le {t u : Token} (h : InOrder (t :: ts)) (hu : u ∈ t :: ts) :
    toLex t.span.start ≤ toLex u.span.start := by
  rcases List.mem_cons.mp hu with rfl | hu
  · exact le_refl _
  · exact (h.forward t List.mem_cons_self).trans ((List.pairwise_cons.mp h.ends).1 u hu)

theorem le_stop {last u : Token} (h : InOrder (ts ++ [last])) (hu : u ∈ ts ++ [last]) :
    toLex u.span.stop ≤ toLex last.span.stop := by
  rcases List.mem_append.mp hu with hu | hu
  · have hends := (List.pairwise_append.mp h.ends).2.2 u hu last List.mem_cons_self
    exact hends.trans (h.forward last (by simp))
  · rw [List.mem_singleton.mp hu]

end InOrder

/-- A run of tokens starts with a token of it and ends with one. -/
theorem exists_ends {ts : List Token} (h : ts ≠ []) :
    ∃ first ∈ ts, ∃ last ∈ ts, (tokensSpan ts).start = first.span.start ∧
      (tokensSpan ts).stop = last.span.stop ∧
      (InOrder ts → ∀ t ∈ ts, toLex first.span.start ≤ toLex t.span.start ∧
        toLex t.span.stop ≤ toLex last.span.stop) := by
  obtain ⟨first, rest, rfl⟩ := List.exists_cons_of_ne_nil h
  obtain ⟨last, hlast⟩ : ∃ last, (first :: rest).getLast? = some last :=
    ⟨_, List.getLast?_eq_some_getLast h⟩
  obtain ⟨init, hinit⟩ := List.getLast?_eq_some_iff.mp hlast
  rw [tokensSpan_eq_through hlast]
  refine ⟨first, List.mem_cons_self, last, List.mem_of_getLast? hlast, rfl, rfl, ?_⟩
  intro horder t ht
  refine ⟨horder.start_le ht, ?_⟩
  rw [hinit] at horder ht
  exact horder.le_stop ht

/-- The place of a run of tokens lies in the place of all of them. -/
theorem InOrder.within {ts part : List Token} (h : InOrder ts) (hpart : part <:+: ts)
    (hne : part ≠ []) : (tokensSpan part).Within (tokensSpan ts) := by
  have hts : ts ≠ [] := by
    rintro rfl
    exact hne (List.infix_nil.mp hpart)
  obtain ⟨first, hfirst, last, hlast, hstart, hstop, -⟩ := exists_ends hne
  obtain ⟨first', -, last', -, hstart', hstop', hall⟩ := exists_ends hts
  rw [Span.Within, hstart, hstop, hstart', hstop']
  exact ⟨(hall h first (hpart.subset hfirst)).1, (hall h last (hpart.subset hlast)).2⟩

/-- Two runs of tokens, one after the other. -/
theorem endsBefore_of_forall {xs ys : List Token} (hx : xs ≠ []) (hy : ys ≠ [])
    (h : ∀ t ∈ xs, ∀ u ∈ ys, t.span.EndsBefore u.span) :
    (tokensSpan xs).EndsBefore (tokensSpan ys) := by
  obtain ⟨-, -, last, hlast, -, hstop, -⟩ := exists_ends hx
  obtain ⟨first, hfirst, -, -, hstart, -⟩ := exists_ends hy
  rw [Span.EndsBefore, hstart, hstop]
  exact h last hlast first hfirst

/-- The tokens of a source are in order. -/
theorem inOrder_of_tokenize {file source : Bytes} {ts : List Token}
    (h : tokenize file source = .ok ts) : InOrder ts := by
  obtain ⟨hall, rfl⟩ := tokenize_eq_ok h
  have hbefore := (Legible.sourceWords source).before_of_mem hall
  constructor
  · rw [List.pairwise_map]
    refine (pairwise_precedes source).imp_of_mem ?_
    intro v w hv hw hprecedes
    rw [Span.EndsBefore, Prod.Lex.toLex_le_toLex]
    rcases hprecedes with hline | ⟨hline, gap, hgap⟩
    · exact .inl (Int.ofNat_lt.mpr hline)
    · refine .inr ⟨congrArg Int.ofNat hline, Int.ofNat_le.mpr ?_⟩
      have hleads : w.before.leads = v.before.leads + v.text.leads + gap.leads := by
        rw [hgap, Bytes.leads_append, Bytes.leads_append]
      show 1 + v.before.chars.length + v.text.chars.length ≤ 1 + w.before.chars.length
      rw [← Bytes.leads_eq_length_chars (hbefore v hv),
        ← Bytes.leads_eq_length_chars (hbefore w hw), ← Bytes.leads_eq_length_chars (hall v hv),
        hleads]
      omega
  · intro t ht
    obtain ⟨w, -, rfl⟩ := List.mem_map.mp ht
    rw [Prod.Lex.toLex_le_toLex]
    exact .inr ⟨rfl, Int.ofNat_le.mpr (Nat.le_add_right ..)⟩

/-! ### Children -/

namespace Node

/-- The expressions or statements right below a node, from left to right. -/
def children : Node → List Node
  | .expr (.binary _ _ l r) => [.expr l, .expr r]
  | .expr (.unary _ _ e) => [.expr e]
  | .expr _ => []
  | .action (.assign _ _ e) | .action (.print _ e) => [.expr e]
  | .action (.seq _ as) => as.map .action
  | .action .missing => []

/-- The places of the children follow each other, in the place of the node. -/
structure IsOrderly (x : Node) : Prop where
  order : x.children.Pairwise fun c d => c.span.EndsBefore d.span
  within : ∀ c ∈ x.children, c.span.Within x.span

end Node

/-- The nodes of a program: the root, the statements and the expressions. -/
def Program.nodes (p : Program) : List Node :=
  .action p.toAction :: p.actions.flatMap fun a => .action a :: a.nodes.map .expr

theorem Reads.isOrderly {ts : List Token} {e : Expr} (h : Reads ts e) (hts : InOrder ts) :
    (Node.expr e).IsOrderly := by
  cases h with
  | var _ => exact ⟨.nil, nofun⟩
  | const _ _ => exact ⟨.nil, nofun⟩
  | @binary t _ ls rs l r hkind hl hr =>
    have hends := (List.pairwise_append.mp (List.pairwise_cons.mp hts.ends).2).2.2
    have hlr : l.span.EndsBefore r.span := by
      rw [hl.span_eq, hr.span_eq]
      exact endsBefore_of_forall hl.ne_nil hr.ne_nil hends
    constructor
    · exact List.pairwise_pair.mpr hlr
    · show ∀ c ∈ [Node.expr l, Node.expr r], _
      rw [List.forall_mem_cons, List.forall_mem_singleton]
      constructor
      · show l.span.Within _
        rw [hl.span_eq]
        exact hts.within ⟨[t], rs, rfl⟩ hl.ne_nil
      · show r.span.Within _
        rw [hr.span_eq]
        exact hts.within (List.suffix_append (t :: ls) rs).isInfix hr.ne_nil
  | @unary t _ ts e hkind he =>
    refine ⟨List.pairwise_singleton .., List.forall_mem_singleton.mpr ?_⟩
    show e.span.Within _
    rw [he.span_eq]
    exact hts.within (List.suffix_cons t ts).isInfix he.ne_nil

theorem ReadsStatement.isOrderly {ts : List Token} {a : Action} (h : ReadsStatement ts a)
    (hts : InOrder ts) : (Node.action a).IsOrderly := by
  cases h with
  | @assign m x ts e _ _ he =>
    refine ⟨List.pairwise_singleton .., List.forall_mem_singleton.mpr ?_⟩
    show e.span.Within _
    rw [he.span_eq]
    exact hts.within (List.suffix_append [m, x] ts).isInfix he.ne_nil
  | @print m ts e _ he =>
    refine ⟨List.pairwise_singleton .., List.forall_mem_singleton.mpr ?_⟩
    show e.span.Within _
    rw [he.span_eq]
    exact hts.within (List.suffix_cons m ts).isInfix he.ne_nil

/-- The places of statements follow each other. -/
theorem ReadsProgram.pairwise_endsBefore {ts : List Token} {as : List Action}
    (h : ReadsProgram ts as) (hts : InOrder ts) :
    as.Pairwise fun a b => a.span.EndsBefore b.span := by
  induction h with
  | nil => exact .nil
  | @cons s ts a as hs hreads ih =>
    refine List.pairwise_cons.mpr ⟨?_, ih (hts.of_infix (List.suffix_append s ts).isInfix)⟩
    intro b hb
    obtain ⟨part, hpart, hb⟩ := hreads.exists_infix b hb
    rw [hs.span_eq, hb.span_eq]
    refine endsBefore_of_forall hs.ne_nil hb.ne_nil fun t ht u hu => ?_
    exact (List.pairwise_append.mp hts.ends).2.2 t ht u (hpart.subset hu)

theorem ReadsProgram.isOrderly {ts : List Token} {as : List Action} (h : ReadsProgram ts as)
    (hts : InOrder ts) : (Node.action (.seq (tokensSpan ts) as)).IsOrderly := by
  constructor
  · exact List.pairwise_map.mpr (h.pairwise_endsBefore hts)
  · refine List.forall_mem_map.mpr fun a ha => ?_
    obtain ⟨part, hpart, hreads⟩ := h.exists_infix a ha
    show a.span.Within _
    rw [hreads.span_eq]
    exact hts.within hpart hreads.ne_nil

/-! ### Reading the text of a node -/

theorem sourceTexts_print (text : Bytes) :
    sourceTexts ("@ " ++ text) = printMarker :: sourceTexts text := by
  rw [sourceTexts_eq_scanFrom .start, sourceTexts_eq_scanFrom ⟨1, 3⟩ text]
  rfl

/-- The words of a statement are read as that statement. -/
theorem ReadsStatement.spells {ts : List Token} {a : Action} (h : ReadsStatement ts a)
    (hformed : ∀ w ∈ Token.texts ts, w.isWellFormed = true) : Spells (Token.texts ts) [a] := by
  refine ⟨hformed, ts, rfl, ?_⟩
  rw [← List.append_nil ts]
  exact .cons h .nil

/-- The words of an expression after the marker are read as printing it. -/
theorem Reads.spells_print {ts : List Token} {e : Expr} (h : Reads ts e)
    (hformed : ∀ w ∈ Token.texts ts, w.isWellFormed = true) :
    ∃ span, Spells (printMarker :: Token.texts ts) [.print span e] := by
  have hmarker : Token.kind ⟨printMarker, .zero⟩ = .print := rfl
  refine ⟨_, ReadsStatement.spells (.print hmarker h) ?_⟩
  exact List.forall_mem_cons.mpr ⟨rfl, hformed⟩

/-- Words that are read as one statement. -/
theorem Spells.exists_ofSource_singleton {source : Bytes} {a : Action}
    (h : Spells (sourceTexts source) [a]) (file : Bytes) :
    ∃ q a', Program.ofSource file source = .ok q ∧ q.actions = [a'] ∧ a'.erase = a.erase := by
  obtain ⟨q, hq, herase⟩ := h.exists_ofSource file
  cases hactions : q.actions with
  | nil =>
    rw [hactions] at herase
    cases herase
  | cons a' as =>
    rw [hactions, Action.eraseAll, Action.eraseAll] at herase
    obtain ⟨ha, has⟩ := List.cons.inj herase
    cases as with
    | nil => exact ⟨q, a', hq, hactions, ha⟩
    | cons b as => cases has

theorem Action.exists_print {a : Action} {span : Span} {e : Expr}
    (h : a.erase = (print span e).erase) : ∃ s e', a = print s e' ∧ e'.erase = e.erase := by
  cases a with
  | print s e' =>
    rw [erase, erase] at h
    exact ⟨s, e', rfl, (print.inj h).2⟩
  | missing | assign | seq => simp [erase] at h

/-- **A node's place is its text.** Let a program be read from a source. The text cut out of the
source at a statement is read, under every file name, as that statement alone; the text cut out at
an expression is read after `@` as a statement that prints that expression and nothing else; apart
from places. And the places of the children of every node, the root included, follow each other from
left to right in the place of the node. -/
theorem Program.spans_delimit_texts {file source : Bytes} {p : Program}
    (h : ofSource file source = .ok p) :
    (∀ a ∈ p.actions, ∀ file' : Bytes,
      (∃ q a', ofSource file' (a.span.cut source) = .ok q ∧ q.actions = [a'] ∧
        a'.erase = a.erase) ∧
      ∀ e ∈ a.nodes, ∃ q span e', ofSource file' ("@ " ++ e.span.cut source) = .ok q ∧
        q.actions = [.print span e'] ∧ e'.erase = e.erase) ∧
    ∀ x ∈ p.nodes,
      (x.children.Pairwise fun c d => c.span.EndsBefore d.span) ∧
      ∀ c ∈ x.children, c.span.Within x.span := by
  obtain ⟨ts, hts, hp⟩ := Result.bind_eq_ok.mp h
  obtain ⟨hspan, hreads⟩ := ofTokens_eq_ok.mp hp
  have horder := inOrder_of_tokenize hts
  obtain ⟨htexts, hformed⟩ := texts_of_tokenize hts
  have hformed : ∀ {part : List Token}, part <:+: ts →
      ∀ w ∈ Token.texts part, w.isWellFormed = true := by
    intro part hpart w hw
    refine hformed w ?_
    rw [← htexts]
    exact (hpart.map Token.text).subset hw
  constructor
  · intro a ha file'
    obtain ⟨part, hpart, hstatement⟩ := hreads.exists_infix a ha
    constructor
    · refine Spells.exists_ofSource_singleton ?_ file'
      rw [hstatement.span_eq, sourceTexts_cut hts hpart hstatement.ne_nil]
      exact hstatement.spells (hformed hpart)
    · intro e he
      obtain ⟨inner, hinner, hexpr⟩ := hstatement.exists_infix e he
      have hinner := hinner.trans hpart
      obtain ⟨span, hspells⟩ := hexpr.spells_print (hformed hinner)
      rw [← sourceTexts_cut hts hinner hexpr.ne_nil, ← sourceTexts_print, ← hexpr.span_eq]
        at hspells
      obtain ⟨q, a', hq, hactions, herase⟩ := hspells.exists_ofSource_singleton file'
      obtain ⟨span', e', rfl, he'⟩ := Action.exists_print herase
      exact ⟨q, span', e', hq, hactions, he'⟩
  · intro x hx
    have hx : x.IsOrderly := by
      rcases List.mem_cons.mp hx with rfl | hx
      · rw [toAction, hspan]
        exact hreads.isOrderly horder
      · obtain ⟨a, ha, hx⟩ := List.mem_flatMap.mp hx
        obtain ⟨part, hpart, hstatement⟩ := hreads.exists_infix a ha
        rcases List.mem_cons.mp hx with rfl | hx
        · exact hstatement.isOrderly (horder.of_infix hpart)
        · obtain ⟨e, he, rfl⟩ := List.mem_map.mp hx
          obtain ⟨inner, hinner, hexpr⟩ := hstatement.exists_infix e he
          exact hexpr.isOrderly (horder.of_infix (hinner.trans hpart))
    exact ⟨hx.order, hx.within⟩

/-- An operation over two lines with a comment, after and with characters of several bytes. -/
theorem Program.spans_delimit_texts_lines :
    let source : Bytes := ":= né 1 @ + né ; ü\n  # 3 @ 2"
    let place : Span := ⟨"f", 1, 11, 2, 6⟩
    place.cut source = "+ né ; ü\n  # 3" ∧
      ∃ p a e, ofSource "f" source = .ok p ∧ a ∈ p.actions ∧ e ∈ a.nodes ∧ e.span = place ∧
        ∃ q span e', ofSource "g" ("@ " ++ place.cut source) = .ok q ∧
          q.actions = [.print span e'] ∧ e'.erase = e.erase := by
  intro source place
  let e : Expr := .binary place "+" (.var ⟨"f", 1, 13, 1, 15⟩ "né")
    (.unary ⟨"f", 2, 3, 2, 6⟩ "#" (.const ⟨"f", 2, 5, 2, 6⟩ 3))
  let a : Action := .print ⟨"f", 1, 9, 2, 6⟩ e
  obtain ⟨p, hread, hactions⟩ : ∃ p, ofSource "f" source = .ok p ∧ p.actions[1]? = some a :=
    ⟨_, rfl, rfl⟩
  have ha : a ∈ p.actions := List.mem_of_getElem? hactions
  have he : e ∈ a.nodes := List.mem_cons_self
  refine ⟨by decide, p, a, e, hread, ha, he, rfl, ?_⟩
  exact ((spans_delimit_texts hread).1 a ha "g").2 e he

end Polish
