import Polish.Proofs.JsonText
import Polish.Proofs.Rules
import Polish.Text.Quoted
import Polish.Toml.Document

/-!
# Quoted text and TOML

A text between double quotes is written with escapes, and TOML has escapes between double quotes as
well, but not the same ones. Both know short escapes, and numbers of four and of eight digits. A
control character of ASCII without a short escape that both know is written in a way that TOML does
not have: the bell and the vertical tab have short escapes of their own, and the others numbers of
two digits. All other characters are read back as they were written.

* `Toml.Spells`: the ways to write a character in TOML; `Toml.Foreign`: an escape that TOML lacks.
* `Toml.Spells.reads`, `Toml.Spells.unescapeFrom`: what TOML makes of a character.
* `Quoted.isPortable`: the characters that are written as TOML has them.
* `Quoted.isSpelling_spelling`: how a character is quoted, as TOML has it or not.
* `Toml.reads_basicString`, `Toml.refuses_basicString`: what TOML makes of a quoted text.
-/

namespace Polish

namespace Toml

open Rule

/-! ### Ways to write a character -/

/-- Is the character a hexadecimal digit? -/
def isHexChar (c : Char) : Bool := c.isDigit || ('a' ≤ c && c ≤ 'f') || ('A' ≤ c && c ≤ 'F')

/-- The digits are so many, and are those of the number. -/
structure IsHex (width n : Nat) (digits : List Char) : Prop where
  length : digits.length = width
  isHexChar : ∀ d ∈ digits, isHexChar d = true
  value : hexNumber digits = n

/-- The ways to write a character between double quotes. -/
inductive Spells (c : Char) : List Char → Prop where
  | plain (hvisible : ' ' ≤ c) (hquote : c ≠ '"') (hbackslash : c ≠ '\\') : Spells c [c]
  | short {letter : Char} (hletter : letter ∈ "btnfr\"/\\".toList)
      (hc : shortEscape? letter = some c) : Spells c ['\\', letter]
  | quad {digits : List Char} (h : IsHex 4 c.toNat digits) : Spells c ('\\' :: 'u' :: digits)
  | octet {digits : List Char} (h : IsHex 8 c.toNat digits) : Spells c ('\\' :: 'U' :: digits)

/-- An escape that is not one of TOML. -/
inductive Foreign : List Char → Prop where
  | mk {mark : Char} (rest : List Char) (h : mark ∉ "btnfr\"/\\uU".toList) :
      Foreign ('\\' :: mark :: rest)

section Reading

variable {c : Char} {text ahead : List Char}

/-! ### Reading a character -/

theorem hexQuad_eq : hexQuad = part (do
    let _ ← part (one isHexChar)
    let _ ← part (one isHexChar)
    let _ ← part (one isHexChar)
    let _ ← part (one isHexChar)) := by
  unfold hexQuad
  simp only [List.forIn_cons, List.forIn_nil, bind_assoc, pure_bind]
  rfl

theorem reads_hexQuad {digits : List Char} (hlength : digits.length = 4)
    (hdigits : ∀ d ∈ digits, isHexChar d = true) :
    Reads hexQuad digits ahead fun _ => True := by
  obtain ⟨w, x, y, z, rfl⟩ : ∃ w x y z, digits = [w, x, y, z] :=
    match digits, hlength with
    | [w, x, y, z], _ => ⟨w, x, y, z, rfl⟩
  have hdigit : ∀ d ∈ [w, x, y, z], ∀ ahead, Reads (part (one isHexChar)) [d] ahead (· = d) :=
    fun d hd ahead => (reads_one (hdigits d hd)).part
  rw [hexQuad_eq]
  refine Reads.part ((hdigit w (by simp) _).bind fun _ _ => ?_)
  refine (hdigit x (by simp) _).bind fun _ _ => (hdigit y (by simp) _).bind fun _ _ => ?_
  exact (hdigit z (by simp) _).bind_nil fun _ _ => reads_pure trivial

theorem reads_backslash : Reads backslash ['\\'] ahead fun _ => True := (reads_mark '\\').part

theorem reads_escaped_short {letter : Char} (h : letter ∈ "btnfr\"/\\".toList) :
    Reads escaped ['\\', letter] ahead fun _ => True := by
  refine Reads.part (reads_backslash.bind fun _ _ => Reads.orElse ?_)
  exact (reads_one (by simpa using h)).bind_nil fun _ _ => reads_pure trivial

theorem reads_escaped_quad {digits : List Char} {n : Nat} (h : IsHex 4 n digits) :
    Reads escaped ('\\' :: 'u' :: digits) ahead fun _ => True := by
  refine Reads.part (reads_backslash.bind fun _ _ => Refuses.orElse_reads ?_ (Reads.orElse ?_))
  · exact (refuses_one fun x hx => by cases hx; rfl).bind
  · exact (reads_mark 'u').bind fun _ _ => reads_hexQuad h.length h.isHexChar

theorem reads_escaped_octet {digits : List Char} {n : Nat} (h : IsHex 8 n digits) :
    Reads escaped ('\\' :: 'U' :: digits) ahead fun _ => True := by
  refine Reads.part (reads_backslash.bind fun _ _ => Refuses.orElse_reads ?_
    (Refuses.orElse_reads ?_ ?_))
  · exact (refuses_one fun x hx => by cases hx; rfl).bind
  · exact (refuses_mark fun x hx => by cases hx; decide).bind
  · -- eight digits are read as twice four
    have hhalves := List.take_append_drop 4 digits
    have hlength := h.length
    refine (reads_mark 'U').bind fun _ _ => ?_
    rw [← hhalves]
    refine (reads_hexQuad ?_ ?_).bind fun _ _ => reads_hexQuad ?_ ?_
    · rw [List.length_take]; omega
    · exact fun d hd => h.isHexChar d (List.mem_of_mem_take hd)
    · rw [List.length_drop]; omega
    · exact fun d hd => h.isHexChar d (List.mem_of_mem_drop hd)

/-- Every way to write a character is read. -/
theorem Spells.reads (h : Spells c text) : Reads basicChar text ahead fun _ => True := by
  refine Reads.part ?_
  have hplain : ∀ rest, Refuses (do
      let _ ← one fun c => ' ' ≤ c && c ≠ '"' && c ≠ '\\') ('\\' :: rest) :=
    fun rest => (refuses_one fun x hx => by cases hx; rfl).bind
  cases h with
  | plain hvisible hquote hbackslash =>
    refine Reads.orElse ((reads_one ?_).bind_nil fun _ _ => reads_pure trivial)
    simp [hvisible, hquote, hbackslash]
  | short hletter hc => exact (hplain _).orElse_reads (reads_escaped_short hletter)
  | quad hdigits => exact (hplain _).orElse_reads (reads_escaped_quad hdigits)
  | octet hdigits => exact (hplain _).orElse_reads (reads_escaped_octet hdigits)

/-- An escape that TOML lacks is not read. -/
theorem Foreign.refuses (h : Foreign text) : Refuses basicChar (text ++ ahead) := by
  obtain @⟨mark, rest, hmark⟩ := h
  have hother : ∀ letter ∈ "btnfr\"/\\uU".toList, mark ≠ letter := by
    rintro letter hletter rfl
    exact hmark hletter
  refine Refuses.part (Refuses.orElse ?_ (Refuses.part ?_))
  · exact (refuses_one fun x hx => by cases hx; rfl).bind
  · refine reads_backslash.bind_refuses fun _ _ => ?_
    refine Refuses.orElse ?_ (Refuses.orElse ?_ ?_)
    · refine (refuses_one fun x hx => ?_).bind
      obtain rfl : mark = x := Option.some.inj hx
      rw [List.contains_eq_mem, decide_eq_false_iff_not]
      exact fun hmem => hother mark (List.mem_append_left ['u', 'U'] hmem) rfl
    · refine (refuses_mark fun x hx => ?_).bind
      obtain rfl : mark = x := Option.some.inj hx
      exact hother 'u' (by decide)
    · refine (refuses_mark fun x hx => ?_).bind
      obtain rfl : mark = x := Option.some.inj hx
      exact hother 'U' (by decide)

/-! ### What a character stands for -/

theorem unescapeFrom_eq_drop (skip : Nat) (text : List Char) :
    unescapeFrom skip text = unescapeFrom 0 (text.drop skip) := by
  induction text generalizing skip with
  | nil => cases skip <;> simp [unescapeFrom]
  | cons c text ih =>
    cases skip with
    | zero => rfl
    | succ skip => rw [unescapeFrom, ih, List.drop_succ_cons]

theorem charOf?_toNat (c : Char) : charOf? c.toNat = some c := by
  have hvalid : c.toNat.isValidChar := c.valid
  rw [charOf?, dif_pos hvalid]
  rfl

/-- A number of `width` digits stands for its character. -/
theorem bind_charOf?_eq {mark : Char} {width : Nat} {digits : List Char}
    (h : IsHex width c.toNat digits) (rest : List Char) :
    ((charOf? (hexNumber ((digits ++ rest).take width))).bind fun x =>
        (unescapeFrom (width + 1) (mark :: (digits ++ rest))).map (x :: ·))
      = (unescapeFrom 0 rest).map (c :: ·) := by
  rw [unescapeFrom_eq_drop, List.drop_succ_cons, ← h.length, List.take_left, List.drop_left,
    h.value, charOf?_toNat, Option.bind_some]

/-- Every way to write a character stands for it. -/
theorem Spells.unescapeFrom (h : Spells c text) (rest : List Char) :
    unescapeFrom 0 (text ++ rest) = (unescapeFrom 0 rest).map (c :: ·) := by
  cases h with
  | plain _ _ hbackslash => simp [Toml.unescapeFrom, hbackslash]
  | @short letter hletter hc =>
    have hnumber : letter ≠ 'u' ∧ letter ≠ 'U' := by
      constructor <;> (rintro rfl; cases hc)
    simp [Toml.unescapeFrom, hnumber, hc]
  | quad hdigits => exact bind_charOf?_eq hdigits rest
  | octet hdigits => exact bind_charOf?_eq hdigits rest

end Reading

end Toml

/-! ### How a character is quoted -/

namespace Quoted

open Bytes (ofChars)

/-- Is the character written as TOML has it? The control characters of ASCII are not, but for those
that have a short escape in both. -/
def isPortable (c : Char) : Bool :=
  "\x08\t\n\x0C\r".toList.contains c || (0x20 ≤ c.toNat && c.toNat ≠ 0x7F)

theorem hexNumber_concat (ds : List Char) (x : Char) :
    Toml.hexNumber (ds ++ [x]) = 16 * Toml.hexNumber ds + Toml.hexNumber [x] := by
  simp [Toml.hexNumber]

/-- The digits of a number, and what they stand for. -/
theorem exists_hex (width n : Nat) :
    ∃ digits, Decimal.hex width n = ofChars digits ∧ Toml.IsHex width (n % 16 ^ width) digits := by
  induction width generalizing n with
  | zero => exact ⟨[], rfl, rfl, List.forall_mem_nil _, (Nat.mod_one n).symm⟩
  | succ width ih =>
    obtain ⟨digits, hdigits, hlength, hhex, hvalue⟩ := ih (n / 16)
    have hlast : ∀ d < 16, [Decimal.hexDigit d] = ofChars [Nat.digitChar d] ∧
        Toml.isHexChar (Nat.digitChar d) = true ∧ Toml.hexNumber [Nat.digitChar d] = d := by decide
    obtain ⟨hdigit, hhexdigit, hvaluedigit⟩ := hlast (n % 16) (Nat.mod_lt n (by decide))
    refine ⟨digits ++ [Nat.digitChar (n % 16)], ?_, ?_, ?_, ?_⟩
    · rw [Decimal.hex, hdigits, hdigit, Bytes.ofChars_append]
    · rw [List.length_append, hlength, List.length_singleton]
    · exact List.forall_mem_append.mpr ⟨hhex, List.forall_mem_singleton.mpr hhexdigit⟩
    · rw [hexNumber_concat, hvalue, hvaluedigit, Nat.pow_succ', Nat.mod_mul, Nat.add_comm]

theorem ofChars_ascii {mark : Char} (h : mark.toNat < 0x80) (cs : List Char) :
    ofChars (mark :: cs) = Bytes.ascii mark :: ofChars cs := by
  have hmark : String.utf8EncodeChar mark = [Bytes.ascii mark] := by
    rw [Bytes.utf8EncodeChar_eq, if_pos (by omega)]
    rfl
  rw [ofChars, List.flatMap_cons, hmark]
  rfl

theorem escaped_eq {mark : Char} (h : mark.toNat < 0x80) (cs : List Char) :
    escaped mark (ofChars cs) = ofChars ('\\' :: mark :: cs) := by
  rw [ofChars_ascii (by decide), ofChars_ascii h, escaped]

/-- A number after a backslash and a mark. -/
theorem exists_number (mark : Char) (hmark : mark.toNat < 0x80) (width : Nat) {n : Nat}
    (hn : n < 16 ^ width) : ∃ digits, Toml.IsHex width n digits ∧
      escaped mark (Decimal.hex width n) = ofChars ('\\' :: mark :: digits) := by
  obtain ⟨digits, hdigits, hhex⟩ := exists_hex width n
  rw [Nat.mod_eq_of_lt hn] at hhex
  exact ⟨digits, hhex, by rw [hdigits, escaped_eq hmark]⟩

/-- The text is how the character is written between double quotes, as TOML has it or not. -/
structure IsSpelling (c : Char) (text : List Char) : Prop where
  escape_eq : escape (.char c) = ofChars text
  spells : isPortable c = true → Toml.Spells c text
  foreign : isPortable c = false → Toml.Foreign text

theorem IsSpelling.of_portable {c : Char} {text : List Char}
    (hescape : escape (.char c) = ofChars text) (hportable : isPortable c = true)
    (hspells : Toml.Spells c text) : IsSpelling c text :=
  ⟨hescape, fun _ => hspells, fun h => Bool.noConfusion (hportable.symm.trans h)⟩

theorem IsSpelling.of_foreign {c : Char} {text : List Char}
    (hescape : escape (.char c) = ofChars text) (hportable : isPortable c = false)
    (hforeign : Toml.Foreign text) : IsSpelling c text :=
  ⟨hescape, fun h => Bool.noConfusion (hportable.symm.trans h), fun _ => hforeign⟩

theorem isPortable_of_visible {c : Char} (hblank : 0x20 ≤ c.toNat) (hdelete : c.toNat ≠ 0x7F) :
    isPortable c = true := by
  rw [isPortable, decide_eq_true hblank, decide_eq_true hdelete, Bool.and_self, Bool.or_true]

theorem visible_of_isPrintable {c : Char} (h : Text.isPrintable c = true) :
    0x20 ≤ c.toNat ∧ c.toNat ≠ 0x7F := by
  rw [Text.isPrintable] at h
  split at h
  · rw [Bool.and_eq_true, decide_eq_true_iff, decide_eq_true_iff] at h
    omega
  · omega

/-- Of the seven short escapes, TOML has five. -/
theorem isSpelling_short {c letter : Char} (h : shortEscape? c = some letter)
    (hescape : escape (.char c) = escaped letter []) : IsSpelling c ['\\', letter] := by
  have hchar : ∀ {n : Nat}, c.toNat = n → c = Char.ofNat n := fun hn => by
    rw [← hn, Char.ofNat_toNat]
  rw [shortEscape?] at h
  -- the bell and the vertical tab are the two that TOML lacks
  split at h <;> cases h <;> next hn =>
    obtain rfl := hchar hn
    have hchars := hescape.trans (escaped_eq (by decide) [])
    first
    | exact .of_portable hchars (by decide) (.short (by decide) rfl)
    | exact .of_foreign hchars (by decide) (.mk [] (by decide))

/-- A character of ASCII that is neither visible nor has a short escape. -/
theorem isPortable_of_ascii {c : Char} (hascii : c.toNat < 0x80)
    (hprintable : Text.isPrintable c = false) (hshort : shortEscape? c = none) :
    isPortable c = false := by
  rw [Text.isPrintable, if_pos hascii] at hprintable
  rw [isPortable, Bool.or_eq_false_iff]
  constructor
  · rw [List.contains_eq_mem, decide_eq_false_iff_not]
    intro hmem
    have hletters : "\x08\t\n\x0C\r".toList.all (fun x => (shortEscape? x).isSome) = true := by
      decide
    have hsome := List.all_eq_true.mp hletters c hmem
    rw [hshort] at hsome
    cases hsome
  · simp at hprintable ⊢
    omega

/-- A character that is neither visible nor has a short escape is written as a number: of two digits
in ASCII, which TOML lacks, and of four or eight digits beyond. -/
theorem exists_isSpelling_number {c : Char} (hprintable : Text.isPrintable c = false)
    (hshort : shortEscape? c = none)
    (hescape : escape (.char c) = if c.toNat < 0x80 then escaped 'x' (Decimal.hex 2 c.toNat)
      else if c.toNat < 0x10000 then escaped 'u' (Decimal.hex 4 c.toNat)
      else escaped 'U' (Decimal.hex 8 c.toNat)) : ∃ text, IsSpelling c text := by
  by_cases hascii : c.toNat < 0x80
  · have hportable := isPortable_of_ascii hascii hprintable hshort
    obtain ⟨digits, hdigits, -⟩ := exists_hex 2 c.toNat
    rw [if_pos hascii, hdigits, escaped_eq (by decide)] at hescape
    exact ⟨_, .of_foreign hescape hportable (.mk digits (by decide))⟩
  rw [if_neg hascii] at hescape
  have hportable := isPortable_of_visible (c := c) (by omega) (by omega)
  by_cases hbasic : c.toNat < 0x10000
  · obtain ⟨digits, hhex, hdigits⟩ := exists_number 'u' (by decide) 4 hbasic
    rw [if_pos hbasic, hdigits] at hescape
    exact ⟨_, .of_portable hescape hportable (.quad hhex)⟩
  · have hlarge : c.toNat < 16 ^ 8 := by
      rcases c.valid with hvalid | ⟨-, hvalid⟩
      · exact Nat.lt_trans hvalid (by decide)
      · exact Nat.lt_trans hvalid (by decide)
    obtain ⟨digits, hhex, hdigits⟩ := exists_number 'U' (by decide) 8 hlarge
    rw [if_neg hbasic, hdigits] at hescape
    exact ⟨_, .of_portable hescape hportable (.octet hhex)⟩

/-- Every character has a spelling, by the cases in which it is quoted. -/
theorem exists_isSpelling (c : Char) : ∃ text, IsSpelling c text := by
  by_cases hc : c = '"' ∨ c = '\\'
  · rcases hc with rfl | rfl
    · exact ⟨['\\', '"'], .of_portable rfl (by decide) (.short (by decide) rfl)⟩
    · exact ⟨['\\', '\\'], .of_portable rfl (by decide) (.short (by decide) rfl)⟩
  rw [not_or] at hc
  have hescape := escape.eq_2 c
  rw [if_neg (by simpa using hc)] at hescape
  cases hprintable : Text.isPrintable c with
  | true =>
    obtain ⟨hblank, hdelete⟩ := visible_of_isPrintable hprintable
    rw [if_pos hprintable] at hescape
    exact ⟨[c], .of_portable (hescape.trans (List.append_nil _).symm)
      (isPortable_of_visible hblank hdelete) (.plain hblank hc.1 hc.2)⟩
  | false =>
    rw [if_neg (by rw [hprintable]; decide)] at hescape
    cases hshort : shortEscape? c with
    | some letter =>
      rw [hshort] at hescape
      exact ⟨_, isSpelling_short hshort hescape⟩
    | none =>
      rw [hshort] at hescape
      exact exists_isSpelling_number hprintable hshort hescape

/-- A character as it is written between double quotes. -/
def spelling (c : Char) : List Char := (escape (.char c)).chars

theorem isSpelling_spelling (c : Char) : IsSpelling c (spelling c) := by
  obtain ⟨text, htext⟩ := exists_isSpelling c
  have hspelling : spelling c = text := by rw [spelling, htext.escape_eq, Bytes.chars_ofChars]
  rwa [hspelling]

/-- No character is written with a double quote first. -/
theorem exists_spelling_eq_cons (c : Char) : ∃ x rest, spelling c = x :: rest ∧ x ≠ '"' := by
  have hspelling := isSpelling_spelling c
  cases hportable : isPortable c with
  | true =>
    have hspells := hspelling.spells hportable
    generalize spelling c = text at hspells
    cases hspells with
    | plain _ hquote _ => exact ⟨_, _, rfl, hquote⟩
    | short | quad | octet => exact ⟨_, _, rfl, by decide⟩
  | false =>
    have hforeign := hspelling.foreign hportable
    generalize spelling c = text at hforeign
    cases hforeign with
    | mk => exact ⟨_, _, rfl, by decide⟩

/-- A quoted text, character by character. -/
theorem encode_ofChars (cs : List Char) :
    encode (ofChars cs) = ofChars ('"' :: (cs.flatMap spelling ++ ['"'])) := by
  have hbody : (cs.map Rune.char).flatMap escape = ofChars (cs.flatMap spelling) := by
    rw [List.flatMap_map, ofChars, List.flatMap_assoc]
    exact List.flatMap_congr fun c _ => (isSpelling_spelling c).escape_eq
  rw [encode, Bytes.runes_ofChars, hbody, ofChars_ascii (by decide), Bytes.ofChars_append]
  rfl

end Quoted

/-! ### What TOML makes of a quoted text -/

namespace Toml

open Quoted Rule

variable {cs ahead : List Char}

theorem reads_many_basicChar (h : ∀ c ∈ cs, isPortable c = true)
    (hahead : Refuses basicChar ahead) :
    Reads (many basicChar) (cs.flatMap spelling) ahead fun _ => True := by
  have heach : ReadsEach basicChar spelling (fun _ _ => True) ahead cs := by
    refine readsEach_of_forall (fun c _ => ?_) (fun c hc ahead => ?_) hahead
    · obtain ⟨x, rest, hspelling, -⟩ := exists_spelling_eq_cons c
      rw [hspelling]
      exact List.cons_ne_nil x rest
    · exact ((isSpelling_spelling c).spells (h c hc)).reads
  exact heach.many.mono fun _ _ => trivial

/-- The characters of a text are what their spellings stand for. -/
theorem unescape_flatMap_spelling (h : ∀ c ∈ cs, isPortable c = true) :
    unescape (cs.flatMap spelling) = some (Bytes.ofChars cs) := by
  have hchars : unescapeFrom 0 (cs.flatMap spelling) = some cs := by
    induction cs with
    | nil => rfl
    | cons c cs ih =>
      obtain ⟨hc, hcs⟩ := List.forall_mem_cons.mp h
      rw [List.flatMap_cons, ((isSpelling_spelling c).spells hc).unescapeFrom, ih hcs,
        Option.map_some]
  rw [unescape, hchars, Option.map_some]

theorem refuses_basicChar_quote : Refuses basicChar ('"' :: ahead) := by
  refine Refuses.part (Refuses.orElse ?_ (Refuses.part (Refuses.bind (Refuses.part ?_))))
  · exact (refuses_one fun x hx => by cases hx; rfl).bind
  · exact refuses_mark fun x hx => by cases hx; decide

/-- **A quoted text without foreign escapes** is read back. -/
theorem reads_basicString (h : ∀ c ∈ cs, isPortable c = true) :
    Reads basicString ('"' :: (cs.flatMap spelling ++ ['"'])) ahead
      (· = some (Bytes.ofChars cs)) := by
  refine Reads.part ((reads_mark '"').bind fun _ _ => ?_)
  refine (reads_many_basicChar h refuses_basicChar_quote).textOf.bind fun body hbody => ?_
  subst hbody
  exact (reads_mark '"').bind_nil fun _ _ => reads_pure (unescape_flatMap_spelling h)

/-- A quoted text with a foreign escape is not read: the quotes do not end before it. -/
theorem refuses_basicString (h : ∃ c ∈ cs, isPortable c = false) :
    Refuses basicString ('"' :: (cs.flatMap spelling ++ ahead)) := by
  -- characters are read up to the first one with a foreign escape, where a quote would have to be
  obtain ⟨c, hfirst⟩ : ∃ c, cs.find? (fun c => !isPortable c) = some c := by
    obtain ⟨c, hc, hforeign⟩ := h
    rw [← Option.isSome_iff_exists, List.find?_isSome]
    exact ⟨c, hc, by rw [hforeign]; rfl⟩
  obtain ⟨hc, front, back, rfl, hfront⟩ := List.find?_eq_some_iff_append.mp hfirst
  have hfront : ∀ x ∈ front, isPortable x = true := fun x hx => by simpa using hfront x hx
  have hforeign := (isSpelling_spelling c).foreign (by simpa using hc)
  rw [List.flatMap_append, List.flatMap_cons, List.append_assoc, List.append_assoc]
  refine Refuses.part ((reads_mark '"').bind_refuses fun _ _ => ?_)
  refine (reads_many_basicChar hfront hforeign.refuses).textOf.bind_refuses fun _ _ => ?_
  generalize spelling c = text at hforeign
  cases hforeign with
  | mk => exact (refuses_mark fun x hx => by cases hx; decide).bind

/-- A quoted text that is not empty is not one between single or triple quotes. -/
theorem refuses_otherQuotes (hne : cs ≠ []) (tail : List Char) :
    Refuses multilineLiteral ('"' :: (cs.flatMap spelling ++ tail)) ∧
      Refuses literalString ('"' :: (cs.flatMap spelling ++ tail)) ∧
      Refuses multilineString ('"' :: (cs.flatMap spelling ++ tail)) := by
  obtain ⟨c, cs, rfl⟩ := List.exists_cons_of_ne_nil hne
  obtain ⟨x, rest, hspelling, hx⟩ := exists_spelling_eq_cons c
  rw [List.flatMap_cons, hspelling]
  refine ⟨(refuses_word fun h => ?_).bind.part, (refuses_mark fun y hy => ?_).bind.part,
    (refuses_word fun h => ?_).bind.part⟩
  · exact absurd (List.cons_prefix_cons.mp h).1 (by decide)
  · cases hy
    decide
  · exact hx (List.cons_prefix_cons.mp (List.cons_prefix_cons.mp h).2).1.symm

theorem reads_string (hne : cs ≠ []) (h : ∀ c ∈ cs, isPortable c = true) :
    Reads string ('"' :: (cs.flatMap spelling ++ ['"'])) ahead (· = some (Bytes.ofChars cs)) := by
  have hothers := refuses_otherQuotes hne (['"'] ++ ahead)
  rw [← List.append_assoc] at hothers
  obtain ⟨hmultilineLiteral, hliteral, hmultiline⟩ := hothers
  refine Reads.part (hmultilineLiteral.orElse_reads (hliteral.orElse_reads ?_))
  exact hmultiline.orElse_reads (reads_basicString h)

theorem refuses_string (h : ∃ c ∈ cs, isPortable c = false) :
    Refuses string ('"' :: (cs.flatMap spelling ++ ahead)) := by
  have hne : cs ≠ [] := by
    rintro rfl
    obtain ⟨c, hc, -⟩ := h
    cases hc
  obtain ⟨hmultilineLiteral, hliteral, hmultiline⟩ := refuses_otherQuotes hne ahead
  refine (hmultilineLiteral.orElse (hliteral.orElse (hmultiline.orElse ?_))).part
  exact refuses_basicString h

end Toml

end Polish
