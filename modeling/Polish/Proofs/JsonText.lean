import Mathlib.Data.List.Forall2
import Mathlib.Tactic.IntervalCases
import Polish.Json.Reader
import Polish.Json.Writer
import Polish.Proofs.Lines
import Polish.Proofs.Numeral
import Polish.Proofs.Words

/-!
# Written JSON can be read

The reader cuts a text into lexemes byte by byte and then puts the lexemes together with a stack of
open objects. What the writer writes for a value takes the reader through both: the text of the
value gives some lexemes, whatever came before, and these lexemes hand the value to the innermost
open object, whatever is open. So the statement about a value is put together from those about its
members.

Strings come back as well-formed text: a stray byte was written as U+FFFD. A written text holds no
control characters, so it stays on one line.

1. `IsClean`: well-formed text without control characters.
2. `escape_spec`, `decodeParts_eq`: characters of a string, written and read.
3. `isNumber_ofInt`, `word?_of_isNumber`: numbers.
4. `Lexes`: the lexemes of a text; `IsReadAs`: a text is read as a value.
5. `isReadAs_str`, `isReadAs_num`, `isReadAs_obj`: the texts of values.
6. `parse?_of_isReadAs`: the reader returns the value.
-/

namespace Polish

open String (utf8EncodeChar)

/-! ### Clean text -/

/-- The text is well-formed and holds no control characters of ASCII. -/
structure IsClean (text : Bytes) : Prop where
  wellFormed : text.isWellFormed = true
  printable : ∀ b ∈ text, 0x20 ≤ b.toNat

namespace IsClean

theorem append {xs ys : Bytes} (hx : IsClean xs) (hy : IsClean ys) : IsClean (xs ++ ys) :=
  ⟨Bytes.isWellFormed_append hx.wellFormed hy.wellFormed,
    List.forall_mem_append.mpr ⟨hx.printable, hy.printable⟩⟩

theorem of_ascii {text : Bytes} (h : ∀ b ∈ text, 0x20 ≤ b.toNat ∧ b.toNat < 0x80) :
    IsClean text := by
  refine ⟨?_, fun b hb => (h b hb).1⟩
  induction text with
  | nil => rfl
  | cons b text ih =>
    obtain ⟨hb, htext⟩ := List.forall_mem_cons.mp h
    have hlt : b < 0x80 := UInt8.lt_iff_toNat_lt.mpr hb.2
    rw [Bytes.isWellFormed, Bytes.runes_cons_ascii hlt, List.all_cons, Rune.isChar, Bool.true_and]
    exact ih htext

theorem mark {b : UInt8} (h : 0x20 ≤ b.toNat ∧ b.toNat < 0x80) : IsClean [b] :=
  of_ascii (List.forall_mem_singleton.mpr h)

theorem flatMap {α : Type} {f : α → Bytes} (h : ∀ a, IsClean (f a)) (as : List α) :
    IsClean (as.flatMap f) := by
  induction as with
  | nil => exact ⟨rfl, by simp⟩
  | cons a as ih =>
    rw [List.flatMap_cons]
    exact (h a).append ih

theorem newline_notMem {text : Bytes} (h : IsClean text) : Bytes.newline ∉ text := by
  intro hmem
  exact absurd (h.printable _ hmem) (by decide)

end IsClean

theorem Bytes.chars_ofChars (cs : List Char) : (ofChars cs).chars = cs := by
  rw [chars, runes_ofChars, List.map_map]
  exact List.map_id cs

/-- The bytes of a character: those of characters of several bytes lie above ASCII. -/
theorem mem_utf8EncodeChar {c : Char} {b : UInt8} (h : b ∈ utf8EncodeChar c) :
    0x80 ≤ b.toNat ∨ b.toNat = c.toNat := by
  have hbyte : ∀ {n : Nat}, n < 256 → (UInt8.ofNat n).toNat = n := fun hn =>
    Bytes.toNat_eq_of_ofNat rfl hn
  rw [Bytes.utf8EncodeChar_eq] at h
  split at h
  · rw [List.mem_singleton] at h
    right
    rw [h, hbyte (by omega)]
  · left
    split at h
    · simp only [List.mem_cons, List.not_mem_nil, or_false] at h
      rcases h with rfl | rfl <;> rw [hbyte (by omega)] <;> omega
    · split at h
      · simp only [List.mem_cons, List.not_mem_nil, or_false] at h
        rcases h with rfl | rfl | rfl <;> rw [hbyte (by omega)] <;> omega
      · simp only [List.mem_cons, List.not_mem_nil, or_false] at h
        rcases h with rfl | rfl | rfl | rfl <;> rw [hbyte (by omega)] <;> omega

theorem isClean_utf8EncodeChar {c : Char} (h : 0x20 ≤ c.toNat) : IsClean (utf8EncodeChar c) := by
  refine ⟨?_, fun b hb => ?_⟩
  · have hone : Bytes.ofChars [c] = utf8EncodeChar c := List.append_nil _
    rw [← hone]
    exact Bytes.isWellFormed_ofChars [c]
  · rcases mem_utf8EncodeChar hb with hb | hb <;> omega

namespace Json

/-! ### Strings -/

/-- The parts of a string that stand for a character: its bytes, or the number of an escape. -/
inductive Spelled (c : Char) : List Part → Prop where
  | bytes : Spelled c ((utf8EncodeChar c).map .byte)
  | number (h : c.toNat < 0xD800) : Spelled c [.escape c.toNat]

/-- The text is read inside a string as these parts. -/
def IsParts (text : Bytes) (ps : List Part) : Prop :=
  ∀ read done, text.foldlM scanStep (.text read, done) = some (.text (ps.reverse ++ read), done)

theorem IsParts.append {xs ys : Bytes} {ps qs : List Part} (hx : IsParts xs ps)
    (hy : IsParts ys qs) : IsParts (xs ++ ys) (ps ++ qs) := by
  intro read done
  rw [List.foldlM_append, hx, Option.bind_eq_bind, Option.bind_some, hy, List.reverse_append,
    List.append_assoc]

/-- Bytes that stand for themselves. -/
theorem isParts_bytes {bs : Bytes} (h : ∀ b ∈ bs, b ≠ 0x22 ∧ b ≠ 0x5C ∧ 0x20 ≤ b.toNat) :
    IsParts bs (bs.map .byte) := by
  induction bs with
  | nil => exact fun _ _ => rfl
  | cons b bs ih =>
    obtain ⟨⟨hquote, hslash, hcontrol⟩, hbs⟩ := List.forall_mem_cons.mp h
    intro read done
    have hstep : scanStep (.text read, done) b = some (.text (.byte b :: read), done) := by
      have hlt : ¬ b < 0x20 := by
        rw [UInt8.lt_iff_toNat_lt]
        show ¬ b.toNat < 32
        omega
      rw [scanStep, if_neg hquote, if_neg hslash, if_neg hlt]
    rw [List.foldlM_cons, hstep, Option.bind_eq_bind, Option.bind_some, ih hbs, List.map_cons,
      List.reverse_cons, List.append_assoc]
    rfl

theorem hexValue?_hexDigit {d : Nat} (h : d < 16) : hexValue? (Decimal.hexDigit d) = some d := by
  revert d
  decide

theorem toNat_hexDigit {d : Nat} (h : d < 16) :
    0x20 ≤ (Decimal.hexDigit d).toNat ∧ (Decimal.hexDigit d).toNat < 0x80 := by
  revert d
  decide

/-- A digit of a numbered escape. -/
theorem scanStep_hexDigit {d : Nat} (h : d < 16) (read : List Part) (missing value : Nat)
    (done : List Lexeme) :
    scanStep (.hex read missing value, done) (Decimal.hexDigit d)
      = if missing ≤ 1 then some (.text (.escape (value * 16 + d) :: read), done)
        else some (.hex read (missing - 1) (value * 16 + d), done) := by
  rw [scanStep, hexValue?_hexDigit h]

/-- A numbered escape is read as its number. -/
theorem isParts_numbered {n : Nat} (h : n < 0x10000) : IsParts (numbered n) [.escape n] := by
  intro read done
  have hdigit : ∀ m, m % 16 < 16 := fun m => Nat.mod_lt m (by decide)
  have hvalue : (((0 * 16 + n / 16 / 16 / 16 % 16) * 16 + n / 16 / 16 % 16) * 16 + n / 16 % 16) * 16
      + n % 16 = n := by omega
  have hbytes : numbered n = [0x5C, 0x75, Decimal.hexDigit (n / 16 / 16 / 16 % 16),
      Decimal.hexDigit (n / 16 / 16 % 16), Decimal.hexDigit (n / 16 % 16),
      Decimal.hexDigit (n % 16)] := rfl
  have hstart : scanStep (.text read, done) 0x5C = some (.escape read, done) := rfl
  have hhex : scanStep (.escape read, done) 0x75 = some (.hex read 4 0, done) := rfl
  rw [hbytes]
  simp only [List.foldlM_cons, List.foldlM_nil, hstart, hhex, Option.bind_eq_bind,
    Option.bind_some, scanStep_hexDigit (hdigit _), Nat.reduceLeDiff, Nat.reduceSub, if_false,
    if_true, hvalue, Nat.le_refl]
  rfl

theorem isClean_numbered (n : Nat) : IsClean (numbered n) := by
  refine .of_ascii ?_
  have hdigit : ∀ m, 0x20 ≤ (Decimal.hexDigit (m % 16)).toNat ∧
      (Decimal.hexDigit (m % 16)).toNat < 0x80 := fun m => toNat_hexDigit (Nat.mod_lt m (by decide))
  intro b hb
  have hb : b ∈ [0x5C, 0x75, Decimal.hexDigit (n / 16 / 16 / 16 % 16),
      Decimal.hexDigit (n / 16 / 16 % 16), Decimal.hexDigit (n / 16 % 16),
      Decimal.hexDigit (n % 16)] := hb
  simp only [List.mem_cons, List.not_mem_nil, or_false] at hb
  rcases hb with rfl | rfl | rfl | rfl | rfl | rfl
  · decide
  · decide
  · exact hdigit _
  · exact hdigit _
  · exact hdigit _
  · exact hdigit _

/-- A character that is written as it is. -/
theorem isParts_utf8EncodeChar {c : Char} (hcontrol : 0x20 ≤ c.toNat) (hquote : c ≠ '"')
    (hslash : c ≠ '\\') : IsParts (utf8EncodeChar c) ((utf8EncodeChar c).map .byte) := by
  have hne : ∀ {d : Char}, c ≠ d → c.toNat ≠ d.toNat := fun hcd heq =>
    hcd (Char.ext (UInt32.toNat_inj.mp heq))
  refine isParts_bytes fun b hb => ?_
  rcases mem_utf8EncodeChar hb with hb | hb
  · refine ⟨?_, ?_, by omega⟩
    · rintro rfl
      exact absurd hb (by decide)
    · rintro rfl
      exact absurd hb (by decide)
  · refine ⟨?_, ?_, by omega⟩
    · rintro rfl
      exact hne hquote hb.symm
    · rintro rfl
      exact hne hslash hb.symm

/-- The text stands for the character inside a string. -/
structure Writes (c : Char) (text : Bytes) : Prop where
  clean : IsClean text
  spelled : ∃ ps, IsParts text ps ∧ Spelled c ps

theorem writes_utf8EncodeChar {c : Char} (hcontrol : 0x20 ≤ c.toNat) (hquote : c ≠ '"')
    (hslash : c ≠ '\\') : Writes c (utf8EncodeChar c) :=
  ⟨isClean_utf8EncodeChar hcontrol, _, isParts_utf8EncodeChar hcontrol hquote hslash, .bytes⟩

theorem writes_numbered {c : Char} (h : c.toNat < 0xD800) : Writes c (numbered c.toNat) :=
  ⟨isClean_numbered c.toNat, _, isParts_numbered (by omega), .number h⟩

/-- A short escape stands for a character of one byte. -/
theorem writes_short {c : Char} {e : UInt8} (he : 0x20 ≤ e.toNat ∧ e.toNat < 0x80)
    (hscan : IsParts [0x5C, e] ((utf8EncodeChar c).map .byte)) : Writes c [0x5C, e] := by
  refine ⟨.of_ascii ?_, _, hscan, .bytes⟩
  rw [List.forall_mem_cons, List.forall_mem_singleton]
  exact ⟨by decide, he⟩

/-- How a character or stray byte is written in a string. -/
theorem writes_escape (r : Rune) : Writes r.toChar (escape r) := by
  cases r with
  | stray b =>
    show Writes Rune.replacement (utf8EncodeChar Rune.replacement)
    exact writes_utf8EncodeChar (by decide) (by decide) (by decide)
  | char c =>
    have hchar : ∀ {n : Nat}, c.toNat = n → c = Char.ofNat n := by
      rintro n rfl
      exact (Char.ofNat_toNat c).symm
    show Writes c (escape (.char c))
    unfold escape
    dsimp only
    split
    · exact writes_short (by decide) fun _ _ => rfl
    · exact writes_short (by decide) fun _ _ => rfl
    · exact writes_short (by decide) fun _ _ => rfl
    · exact writes_short (by decide) fun _ _ => rfl
    · exact writes_short (by decide) fun _ _ => rfl
    · exact writes_numbered (by decide)
    · exact writes_numbered (by decide)
    · exact writes_numbered (by decide)
    · exact writes_numbered (by decide)
    · exact writes_numbered (by decide)
    · next hquote hslash _ _ _ _ _ _ _ _ =>
      split
      · next hback =>
        rw [hchar hback]
        exact writes_short (by decide) fun _ _ => rfl
      · split
        · next hfeed =>
          rw [hchar hfeed]
          exact writes_short (by decide) fun _ _ => rfl
        · split
          · exact writes_numbered (by omega)
          · exact writes_utf8EncodeChar (by omega) hquote hslash

/-! #### Reading strings -/

/-- Bytes of well-formed text stand for themselves. -/
theorem rawText_eq {raw : Bytes} {ds : List Char} (h : raw.reverse = Bytes.ofChars ds) :
    rawText raw = Bytes.ofChars ds := by
  rw [rawText, h, Bytes.chars_ofChars]

theorem decodeParts_bytes (raw bs : Bytes) (rest : List Part) :
    decodeParts raw (bs.map .byte ++ rest) = decodeParts (bs.reverse ++ raw) rest := by
  induction bs generalizing raw with
  | nil => rfl
  | cons b bs ih =>
    rw [List.map_cons, List.cons_append, decodeParts, ih, List.reverse_cons, List.append_assoc]
    rfl

/-- An escape that is no half of a pair stands alone. -/
theorem decodeParts_escape {n : Nat} (h : n < 0xD800) (raw : Bytes) (rest : List Part) :
    decodeParts raw (.escape n :: rest)
      = rawText raw ++ utf8EncodeChar (Char.ofNat n) ++ decodeParts [] rest := by
  have hlone : lone n = Char.ofNat n := by
    rw [lone, if_neg]
    simp only [Bool.and_eq_true, decide_eq_true_eq]
    omega
  have hpair : ∀ m, surrogates? n m = none := by
    intro m
    rw [surrogates?, if_neg]
    simp only [Bool.and_eq_true, decide_eq_true_eq]
    omega
  cases rest with
  | nil => simp only [decodeParts, hlone]
  | cons part rest =>
    cases part with
    | byte b => simp only [decodeParts, hlone]
    | escape m => simp only [decodeParts, hpair, hlone]

/-- The text of parts that stand for characters. The bytes before them wait for the next escape. -/
theorem decodeParts_eq {cs : List Char} {pss : List (List Part)} (h : List.Forall₂ Spelled cs pss)
    {raw : Bytes} {ds : List Char} (hraw : raw.reverse = Bytes.ofChars ds) :
    decodeParts raw pss.flatten = Bytes.ofChars (ds ++ cs) := by
  induction h generalizing raw ds with
  | nil =>
    rw [List.flatten_nil, decodeParts, List.append_nil]
    exact rawText_eq hraw
  | @cons c ps cs pss hc _ ih =>
    rw [List.flatten_cons, List.append_cons]
    cases hc with
    | bytes =>
      rw [decodeParts_bytes]
      refine ih ?_
      rw [List.reverse_append, List.reverse_reverse, hraw, Bytes.ofChars_append]
      simp [Bytes.ofChars]
    | number hc =>
      have hrest : decodeParts [] pss.flatten = Bytes.ofChars ([] ++ cs) := ih rfl
      rw [List.singleton_append, decodeParts_escape hc, rawText_eq hraw, Char.ofNat_toNat, hrest]
      simp [Bytes.ofChars]

/-! ### Numbers -/

/-- A byte that may stand in a number. -/
def isNumberByte (b : UInt8) : Bool :=
  Decimal.isDigit b || [0x2B, 0x2D, 0x2E, 0x45, 0x65].contains b

theorem isNumberByte_of_step {s s' : NumberState} {b : UInt8} (h : s.step b = some s') :
    isNumberByte b = true := by
  have hzero : Decimal.isDigit 0x30 = true := rfl
  rw [isNumberByte, Bool.or_eq_true, List.contains_iff_mem]
  cases s <;> simp only [NumberState.step] at h <;> grind

theorem isNumberByte_of_foldlM {w : Bytes} {s s' : NumberState}
    (h : w.foldlM NumberState.step s = some s') : ∀ b ∈ w, isNumberByte b = true := by
  induction w generalizing s with
  | nil => simp
  | cons b w ih =>
    rw [List.foldlM_cons, Option.bind_eq_bind, Option.bind_eq_some_iff] at h
    obtain ⟨next, hb, hw⟩ := h
    exact List.forall_mem_cons.mpr ⟨isNumberByte_of_step hb, ih hw⟩

/-- The bytes of a number are printable, and none of them ends a word. -/
theorem isNumberByte_spec {b : UInt8} (h : isNumberByte b = true) :
    (0x20 ≤ b.toNat ∧ b.toNat < 0x80) ∧ mark? b = none ∧ isGap b = false ∧ b ≠ 0x22 := by
  rw [isNumberByte, Bool.or_eq_true, List.contains_iff_mem] at h
  rcases h with h | h
  · obtain ⟨hlow, hhigh⟩ := Decimal.isDigit_iff.mp h
    rw [← UInt8.ofNat_toNat (x := b)]
    generalize b.toNat = n at hlow hhigh
    interval_cases n <;> decide
  · simp only [List.mem_cons, List.not_mem_nil, or_false] at h
    rcases h with rfl | rfl | rfl | rfl | rfl <;> decide

theorem isNumber_spec {w : Bytes} (h : isNumber w = true) :
    w ≠ [] ∧ ∀ b ∈ w, isNumberByte b = true := by
  rw [isNumber] at h
  split at h
  · next s hs =>
    refine ⟨?_, isNumberByte_of_foldlM hs⟩
    rintro rfl
    cases hs
    cases h
  · cases h

theorem word?_of_isNumber {w : Bytes} (h : isNumber w = true) : word? w = some (.num w) := by
  have hne : ∀ {v : Bytes}, isNumber v = false → w ≠ v := by
    rintro v hv rfl
    rw [h] at hv
    cases hv
  rw [word?, if_neg (hne (by decide)), if_neg (hne (by decide)), if_neg (hne (by decide)), if_pos h]

theorem foldlM_step_digits {ds : Bytes} (h : ∀ d ∈ ds, Decimal.isDigit d = true) :
    ds.foldlM NumberState.step .digits = some .digits := by
  induction ds with
  | nil => rfl
  | cons d ds ih =>
    obtain ⟨hd, hds⟩ := List.forall_mem_cons.mp h
    have hstep : NumberState.step .digits d = some .digits := if_pos hd
    rw [List.foldlM_cons, hstep, Option.bind_eq_bind, Option.bind_some, ih hds]

/-- After a state in which a number may begin, the digits of a number are read as one. -/
theorem foldlM_step_ofNat (n : Nat) {s : NumberState}
    (hzero : s.step 0x30 = some .zero)
    (hdigit : ∀ d, d ≠ 0x30 → Decimal.isDigit d = true → s.step d = some .digits) :
    ∃ s', (Decimal.ofNat n).foldlM NumberState.step s = some s' ∧ s'.complete = true := by
  obtain ⟨hnumeral, hvalue⟩ := Decimal.isNumeral_ofNat n
  have hstrip := Decimal.ofNat_value hnumeral
  rw [hvalue] at hstrip
  generalize Decimal.ofNat n = w at *
  cases w with
  | nil => cases hnumeral
  | cons d ds =>
    obtain ⟨hd, hds⟩ := Decimal.isNumeral_cons.mp hnumeral
    by_cases hlead : d = 0x30
    · -- a number with a leading zero is zero
      subst hlead
      cases ds with
      | nil =>
        refine ⟨.zero, ?_, rfl⟩
        rw [List.foldlM_cons, hzero]
        rfl
      | cons e ds =>
        have hshort := Decimal.length_stripZeros_le (e :: ds)
        rw [Decimal.stripZeros] at hstrip
        rw [← hstrip] at hshort
        exact absurd hshort (Nat.not_succ_le_self _)
    · refine ⟨.digits, ?_, rfl⟩
      rw [List.foldlM_cons, hdigit d hlead hd, Option.bind_eq_bind, Option.bind_some,
        foldlM_step_digits hds]

/-- Written integers are numbers. -/
theorem isNumber_ofInt (n : Int) : isNumber (Decimal.ofInt n) = true := by
  cases n with
  | ofNat n =>
    obtain ⟨s, hs, hcomplete⟩ := foldlM_step_ofNat n (s := .start) rfl fun d hlead hd => by
      have hminus : d ≠ 0x2D := by
        rintro rfl
        cases hd
      rw [NumberState.step, if_neg hminus, if_neg hlead, if_pos hd]
    show isNumber (Decimal.ofNat n) = true
    rw [isNumber, hs]
    exact hcomplete
  | negSucc n =>
    obtain ⟨s, hs, hcomplete⟩ := foldlM_step_ofNat (n + 1) (s := .minus) rfl fun d hlead hd => by
      rw [NumberState.step, if_neg hlead, if_pos hd]
    have hminus : NumberState.step .start (Bytes.ascii '-') = some .minus := rfl
    rw [isNumber, Decimal.ofInt, List.foldlM_cons, hminus, Option.bind_eq_bind, Option.bind_some, hs]
    exact hcomplete

/-! ### Lexemes -/

/-- The scanner has these lexemes, last first; the last one may be a word that has not ended. -/
inductive Rests : Scan × List Lexeme → List Lexeme → Prop where
  | idle {done : List Lexeme} : Rests (.idle, done) done
  | word {read : Bytes} {done : List Lexeme} {j : Json} (h : word? read.reverse = some j) :
      Rests (.word read, done) (.scalar j :: done)

/-- The text has these lexemes, whatever came before. -/
def Lexes (text : Bytes) (ls : List Lexeme) : Prop :=
  ∀ done, ∃ state, text.foldlM scanStep (.idle, done) = some state ∧
    Rests state (ls.reverse ++ done)

/-- A mark ends what came before. -/
theorem Rests.scanStep_mark {state : Scan × List Lexeme} {done : List Lexeme}
    (h : Rests state done) {b : UInt8} {m : Lexeme} (hb : mark? b = some m) :
    scanStep state b = some (.idle, m :: done) := by
  have hidle : ∀ done, idleStep b done = (.idle, m :: done) := by
    intro done
    rw [idleStep, hb]
  cases h with
  | idle => rw [scanStep, hidle]
  | word hword => rw [scanStep, hb, Option.isSome_some, Bool.true_or, Bool.true_or, if_pos rfl, hword,
      Option.map_some, hidle]

namespace Lexes

theorem nil : Lexes [] [] := fun _ => ⟨_, rfl, .idle⟩

/-- A text, a mark and more text. -/
theorem mark {xs ys : Bytes} {ls ks : List Lexeme} (hx : Lexes xs ls) {b : UInt8} {m : Lexeme}
    (hb : mark? b = some m) (hy : Lexes ys ks) : Lexes (xs ++ b :: ys) (ls ++ m :: ks) := by
  intro done
  obtain ⟨state, hstate, hrests⟩ := hx done
  obtain ⟨state', hstate', hrests'⟩ := hy (m :: (ls.reverse ++ done))
  refine ⟨state', ?_, ?_⟩
  · rw [List.foldlM_append, hstate, Option.bind_eq_bind, Option.bind_some, List.foldlM_cons,
      hrests.scanStep_mark hb, Option.bind_eq_bind, Option.bind_some, hstate']
  · simpa using hrests'

theorem lexemes?_eq {text : Bytes} {ls : List Lexeme} (h : Lexes text ls) :
    lexemes? text = some ls := by
  obtain ⟨state, hstate, hrests⟩ := h []
  rw [List.append_nil] at hrests
  rw [lexemes?, hstate]
  generalize hall : ls.reverse = all at hrests
  have hls : ls = all.reverse := by rw [← hall, List.reverse_reverse]
  cases hrests with
  | idle => rw [hls]
  | word hword =>
    show (word? _).map _ = _
    rw [hword, hls]
    rfl

end Lexes

end Json

/-- The text with U+FFFD for each stray byte. -/
def Bytes.cleaned (text : Bytes) : Bytes := ofChars text.chars

theorem Bytes.cleaned_of_isWellFormed {text : Bytes} (h : text.isWellFormed = true) :
    text.cleaned = text := by
  obtain ⟨cs, rfl⟩ := exists_ofChars h
  rw [cleaned, chars_ofChars]

namespace Json

theorem lexes_quote (text : Bytes) : Lexes (quote text) [.scalar (.str text.cleaned)] := by
  obtain ⟨pss, hparts, hspelled⟩ : ∃ pss : List (List Part),
      IsParts (text.runes.flatMap escape) pss.flatten ∧ List.Forall₂ Spelled text.chars pss := by
    rw [Bytes.chars]
    induction text.runes with
    | nil => exact ⟨[], fun _ _ => rfl, .nil⟩
    | cons r rs ih =>
      obtain ⟨ps, hr, hspelled⟩ := (writes_escape r).spelled
      obtain ⟨pss, hrs, hall⟩ := ih
      refine ⟨ps :: pss, ?_, .cons hspelled hall⟩
      rw [List.flatMap_cons, List.flatten_cons]
      exact hr.append hrs
  intro done
  refine ⟨(.idle, .scalar (.str text.cleaned) :: done), ?_, .idle⟩
  have hopen : scanStep (.idle, done) 0x22 = some (.text [], done) := rfl
  have hquote : quote text = 0x22 :: (text.runes.flatMap escape ++ [0x22]) := rfl
  rw [hquote, List.foldlM_cons, hopen, Option.bind_eq_bind, Option.bind_some, List.foldlM_append,
    hparts, Option.bind_eq_bind, Option.bind_some, List.append_nil]
  show some (Scan.idle, Lexeme.scalar (.str (decodeParts [] pss.flatten.reverse.reverse)) :: done) = _
  have hempty : ([] : Bytes).reverse = Bytes.ofChars [] := rfl
  rw [List.reverse_reverse, decodeParts_eq hspelled hempty]
  rfl

theorem foldlM_scanStep_word {bs : Bytes} (h : ∀ b ∈ bs, isNumberByte b = true) (read : Bytes)
    (done : List Lexeme) :
    bs.foldlM scanStep (.word read, done) = some (.word (bs.reverse ++ read), done) := by
  induction bs generalizing read with
  | nil => rfl
  | cons b bs ih =>
    obtain ⟨hb, hbs⟩ := List.forall_mem_cons.mp h
    obtain ⟨-, hmark, hgap, hquote⟩ := isNumberByte_spec hb
    have hstep : scanStep (.word read, done) b = some (.word (b :: read), done) := by
      rw [scanStep, hmark, hgap, if_neg]
      simpa using hquote
    rw [List.foldlM_cons, hstep, Option.bind_eq_bind, Option.bind_some, ih hbs, List.reverse_cons,
      List.append_assoc]
    rfl

theorem lexes_num {w : Bytes} (h : isNumber w = true) : Lexes w [.scalar (.num w)] := by
  obtain ⟨hne, hbytes⟩ := isNumber_spec h
  obtain ⟨b, bs, rfl⟩ := List.exists_cons_of_ne_nil hne
  obtain ⟨hb, hbs⟩ := List.forall_mem_cons.mp hbytes
  obtain ⟨-, hmark, hgap, hquote⟩ := isNumberByte_spec hb
  intro done
  have hstart : scanStep (.idle, done) b = some (.word [b], done) := by
    rw [scanStep, idleStep, hmark, hgap, if_neg Bool.false_ne_true, if_neg hquote]
  refine ⟨(.word (bs.reverse ++ [b]), done), ?_, .word ?_⟩
  · rw [List.foldlM_cons, hstart, Option.bind_eq_bind, Option.bind_some, foldlM_scanStep_word hbs]
  · rw [List.reverse_append, List.reverse_reverse]
    exact word?_of_isNumber h

/-! ### Values -/

/-- The text is read as the value, wherever a value may stand with so many levels to spare. -/
structure IsReadAs (levels : Nat) (text : Bytes) (j : Json) : Prop where
  clean : IsClean text
  lexes : ∃ ls, Lexes text ls ∧ ∀ stack : List Frame, stack.length + levels ≤ depthLimit →
    ls.foldlM Assembly.step ⟨stack, .value⟩ = Assembly.take stack j

/-- The reader returns the value of a text that is read as it. -/
theorem parse?_of_isReadAs {levels : Nat} {text : Bytes} {j : Json} (h : IsReadAs levels text j)
    (hlevels : levels ≤ depthLimit) : parse? text = some j := by
  obtain ⟨ls, hlexes, hassemble⟩ := h.lexes
  have hvalue := hassemble [] (by simpa using hlevels)
  rw [parse?, hlexes.lexemes?_eq, Option.bind_eq_bind, Option.bind_some, hvalue]
  rfl

/-- A scalar is one lexeme. -/
theorem isReadAs_scalar {text : Bytes} {j : Json} (hclean : IsClean text)
    (h : Lexes text [.scalar j]) (levels : Nat) : IsReadAs levels text j := by
  refine ⟨hclean, _, h, fun stack _ => ?_⟩
  show (Assembly.take stack j).bind some = _
  exact Option.bind_fun_some _

theorem isReadAs_str (text : Bytes) (levels : Nat) :
    IsReadAs levels (render (.str text)) (.str text.cleaned) := by
  have hquote : IsClean "\"" := .mark (b := 0x22) (by decide)
  rw [render]
  refine isReadAs_scalar ?_ (lexes_quote text) levels
  exact (hquote.append (.flatMap (fun r => (writes_escape r).clean) _)).append hquote

theorem isReadAs_num {w : Bytes} (h : isNumber w = true) (levels : Nat) :
    IsReadAs levels (render (.num w)) (.num w) := by
  rw [render]
  refine isReadAs_scalar (.of_ascii fun b hb => ?_) (lexes_num h) levels
  exact (isNumberByte_spec ((isNumber_spec h).2 b hb)).1

/-- A member of an object is read as another one. -/
def IsMember (levels : Nat) (m m' : Bytes × Json) : Prop :=
  m'.1 = m.1.cleaned ∧ IsReadAs levels m.2.render m'.2

/-- Reading these lexemes where a key is due adds members to the innermost object. -/
def AddsMembers (levels : Nat) (ls : List Lexeme) (ms : List (Bytes × Json)) : Prop :=
  ∀ (stack : List Frame) (done : List (Bytes × Json)) (expected : Expected),
    expected = .firstKey ∨ expected = .key → stack.length + 1 + levels ≤ depthLimit →
    ls.foldlM Assembly.step ⟨.members done :: stack, expected⟩
      = some ⟨.members (ms.reverse ++ done) :: stack, .more⟩

theorem lexes_member {levels : Nat} {m m' : Bytes × Json} (h : IsMember levels m m') :
    IsClean (quote m.1 ++ ":" ++ m.2.render) ∧
      ∃ ls, Lexes (quote m.1 ++ ":" ++ m.2.render) ls ∧ AddsMembers levels ls [m'] := by
  obtain ⟨key, value⟩ := m
  obtain ⟨key', value'⟩ := m'
  obtain ⟨rfl, hvalue⟩ := h
  obtain ⟨ls, hlexes, hassemble⟩ := hvalue.lexes
  have hkey : IsClean (quote key) := by
    have hstr := (isReadAs_str key 0).clean
    rwa [render] at hstr
  have hcolon : IsClean ":" := .mark (b := 0x3A) (by decide)
  refine ⟨(hkey.append hcolon).append hvalue.clean,
    [.scalar (.str key.cleaned)] ++ .colon :: ls, ?_, ?_⟩
  · rw [List.append_assoc]
    exact (lexes_quote key).mark (m := .colon) rfl hlexes
  · intro stack done expected hexpected hlimit
    have hstart : Assembly.step ⟨.members done :: stack, expected⟩ (.scalar (.str key.cleaned))
        = some ⟨.member done key.cleaned :: stack, .colon⟩ := by
      rcases hexpected with rfl | rfl <;> rfl
    have hmark : Assembly.step ⟨.member done key.cleaned :: stack, .colon⟩ .colon
        = some ⟨.member done key.cleaned :: stack, .value⟩ := rfl
    rw [List.singleton_append, List.foldlM_cons, hstart, Option.bind_eq_bind, Option.bind_some,
      List.foldlM_cons, hmark, Option.bind_eq_bind, Option.bind_some,
      hassemble (.member done key.cleaned :: stack) hlimit]
    rfl

theorem renderMembers_cons (m : Bytes × Json) {ms : List (Bytes × Json)} (h : ms ≠ []) :
    renderMembers (m :: ms) = quote m.1 ++ ":" ++ m.2.render ++ "," ++ renderMembers ms := by
  obtain ⟨k, x⟩ := m
  cases ms with
  | nil => exact absurd rfl h
  | cons m ms => rw [renderMembers]; simp

/-- The members of an object are read one after the other. -/
theorem lexes_members {levels : Nat} {ms ms' : List (Bytes × Json)}
    (h : List.Forall₂ (IsMember levels) ms ms') (hne : ms ≠ []) :
    IsClean (renderMembers ms) ∧
      ∃ ls, Lexes (renderMembers ms) ls ∧ AddsMembers levels ls ms' := by
  induction h with
  | nil => exact absurd rfl hne
  | @cons m m' ms ms' hm hms ih =>
    obtain ⟨hclean, ls, hlexes, hadds⟩ := lexes_member hm
    by_cases hlast : ms = []
    · subst hlast
      cases hms
      rw [renderMembers]
      exact ⟨hclean, ls, hlexes, hadds⟩
    · obtain ⟨hcleanRest, ks, hlexesRest, haddsRest⟩ := ih hlast
      have hcomma : IsClean "," := .mark (b := 0x2C) (by decide)
      rw [renderMembers_cons m hlast]
      refine ⟨(hclean.append hcomma).append hcleanRest, ls ++ .comma :: ks, ?_, ?_⟩
      · rw [List.append_assoc]
        exact hlexes.mark (m := .comma) rfl hlexesRest
      · intro stack done expected hexpected hlimit
        have hmark : Assembly.step ⟨.members ([m'].reverse ++ done) :: stack, .more⟩ .comma
            = some ⟨.members ([m'].reverse ++ done) :: stack, .key⟩ := rfl
        rw [List.foldlM_append, hadds stack done expected hexpected hlimit, Option.bind_eq_bind,
          Option.bind_some, List.foldlM_cons, hmark, Option.bind_eq_bind, Option.bind_some,
          haddsRest stack _ .key (.inr rfl) hlimit, ← List.append_assoc, ← List.reverse_append,
          List.singleton_append]

/-- **Objects.** An object is read as the object of what its members are read as. -/
theorem isReadAs_obj {levels : Nat} {ms ms' : List (Bytes × Json)}
    (h : List.Forall₂ (IsMember levels) ms ms') :
    IsReadAs (levels + 1) (render (.obj ms)) (.obj ms') := by
  have hopen : IsClean "\x7b" := .mark (b := 0x7B) (by decide)
  have hclose : IsClean "\x7d" := .mark (b := 0x7D) (by decide)
  have henter : ∀ stack : List Frame, stack.length + (levels + 1) ≤ depthLimit →
      Assembly.step ⟨stack, .value⟩ .openObj = some ⟨.members [] :: stack, .firstKey⟩ := by
    intro stack hlimit
    show (if stack.length < depthLimit then _ else _) = _
    rw [if_pos (by omega)]
  rw [render]
  by_cases hne : ms = []
  · subst hne
    cases h
    refine ⟨(hopen.append ⟨rfl, by simp [renderMembers]⟩).append hclose, [.openObj, .closeObj], ?_, ?_⟩
    · exact Lexes.nil.mark (m := .openObj) rfl (Lexes.nil.mark (m := .closeObj) rfl .nil)
    · intro stack hlimit
      rw [List.foldlM_cons, henter stack hlimit]
      show (Assembly.take stack (.obj [])).bind some = _
      exact Option.bind_fun_some _
  · obtain ⟨hclean, ls, hlexes, hadds⟩ := lexes_members h hne
    refine ⟨(hopen.append hclean).append hclose, .openObj :: (ls ++ [.closeObj]), ?_, ?_⟩
    · rw [List.append_assoc]
      exact Lexes.nil.mark (m := .openObj) rfl (hlexes.mark (m := .closeObj) rfl .nil)
    · intro stack hlimit
      rw [List.foldlM_cons, henter stack hlimit, Option.bind_eq_bind, Option.bind_some,
        List.foldlM_append, hadds stack [] .firstKey (.inl rfl) (by omega), List.append_nil]
      show (Assembly.take stack (.obj ms'.reverse.reverse)).bind some = _
      rw [List.reverse_reverse]
      exact Option.bind_fun_some _

end Json

end Polish
