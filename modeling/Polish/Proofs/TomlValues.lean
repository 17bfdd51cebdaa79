import Polish.Proofs.QuotedText

/-!
# Values up to the end of a line

A value is read by trying one kind after the other: times and numbers before texts, and words after
them. So it is not enough that a value is of its kind; it must be of none that is tried before. The
digits of a number are no time, since a time needs a dash or a colon after some digits, and no
number with a fraction, since such a number goes on after its digits. All others can be told from
their first character.

* `Toml.TakesDigits`: what a rule for digits does with digits up to the end of a line.
* `Toml.IsValueText`: what stands for a value up to the end of a line.
* `Toml.isValueText_integer`, `Toml.isValueText_string`, `Toml.isValueText_boolean`: whole numbers,
  quoted texts without foreign escapes, and flags.
* `Toml.refuses_value_string`: a quoted text with a foreign escape is no value.
-/

namespace Polish.Toml

open Rule

variable {ahead tail : List Char}

/-! ### Numbers -/

/-- With digits in front of it and then none, the rule takes some of the digits, or does not fit. -/
def TakesDigits (r : Rule Unit) (ahead : List Char) : Prop :=
  ∀ ds : List Char, (∀ d ∈ ds, d.isDigit = true) → Refuses r (ds ++ ahead) ∨
    ∃ front back, ds = front ++ back ∧ Reads r front (back ++ ahead) fun _ => True

namespace TakesDigits

variable {r s : Rule Unit} {α : Type} {f : Unit → Rule α}

theorem part (h : TakesDigits r ahead) : TakesDigits (part r) ahead := by
  intro ds hds
  rcases h ds hds with hrefuses | ⟨front, back, hsplit, hreads⟩
  · exact .inl hrefuses.part
  · exact .inr ⟨front, back, hsplit, hreads.part⟩

/-- One after the other, two rules take digits that follow each other. -/
theorem bind (hr : TakesDigits r ahead) (hs : TakesDigits s ahead) :
    TakesDigits (do r; s) ahead := by
  intro ds hds
  rcases hr ds hds with hrefuses | ⟨front, rest, rfl, hreads⟩
  · exact .inl hrefuses.bind
  · have hrest : ∀ d ∈ rest, d.isDigit = true := fun d hd => hds d (List.mem_append_right front hd)
    rcases hs rest hrest with hrefuses | ⟨middle, back, rfl, hmore⟩
    · left
      rw [List.append_assoc]
      exact hreads.bind_refuses fun _ _ => hrefuses
    · right
      refine ⟨front ++ middle, back, (List.append_assoc _ _ _).symm, ?_⟩
      rw [List.append_assoc] at hreads
      exact hreads.bind fun _ _ => hmore

/-- What needs something else than a digit after the digits does not fit. -/
theorem bind_refuses (hr : TakesDigits r ahead)
    (hf : ∀ ds : List Char, (∀ d ∈ ds, d.isDigit = true) → Refuses (f ()) (ds ++ ahead))
    {ds : List Char} (hds : ∀ d ∈ ds, d.isDigit = true) : Refuses (r >>= f) (ds ++ ahead) := by
  rcases hr ds hds with hrefuses | ⟨front, back, rfl, hreads⟩
  · exact hrefuses.bind
  · rw [List.append_assoc]
    exact hreads.bind_refuses fun _ _ =>
      hf back fun d hd => hds d (List.mem_append_right front hd)

end TakesDigits

/-- May a number of several digits start with the digit? -/
def isLeadDigit (d : Char) : Bool := '1' ≤ d && d ≤ '9'

theorem isDigit_of_isLeadDigit {d : Char} (h : isLeadDigit d = true) : d.isDigit = true := by
  simp only [isLeadDigit, Bool.and_eq_true, decide_eq_true_iff, Char.le_def,
    UInt32.le_iff_toNat_le] at h
  simp only [Char.isDigit, Bool.and_eq_true, decide_eq_true_iff, ge_iff_le,
    UInt32.le_iff_toNat_le]
  exact ⟨Nat.le_trans (by decide) h.1, h.2⟩

theorem reads_digit {d : Char} (h : d.isDigit = true) : Reads digit [d] ahead fun _ => True :=
  ((reads_one h).bind_nil fun _ _ => reads_pure trivial).part

theorem refuses_digit (h : ∀ x ∈ ahead.head?, x.isDigit = false) : Refuses digit ahead :=
  (refuses_one h).bind.part

theorem takesDigits_digit (h : ∀ x ∈ ahead.head?, x.isDigit = false) :
    TakesDigits digit ahead := by
  intro ds hds
  cases ds with
  | nil => exact .inl (refuses_digit h)
  | cons d ds => exact .inr ⟨[d], ds, rfl, reads_digit (hds d List.mem_cons_self)⟩

theorem takesDigits_twoDigits (h : ∀ x ∈ ahead.head?, x.isDigit = false) :
    TakesDigits twoDigits ahead :=
  ((takesDigits_digit h).bind (takesDigits_digit h)).part

section LineEnd

variable {ds : List Char} (hds : ∀ d ∈ ds, d.isDigit = true)

/-- No digit follows at the end of a line. -/
theorem notDigit_head_newline : ∀ x ∈ ('\n' :: tail).head?, x.isDigit = false :=
  fun x hx => by cases hx; rfl

include hds in
/-- Neither a digit nor the end of a line is a mark of a time or of a table. -/
theorem ne_head_digits {x : Char} (hx : x.isDigit = false) (hnewline : x ≠ '\n') :
    ∀ y ∈ (ds ++ '\n' :: tail).head?, y ≠ x := by
  rintro y hy rfl
  cases ds with
  | nil =>
    cases hy
    exact hnewline rfl
  | cons d ds =>
    cases hy
    rw [hds _ List.mem_cons_self] at hx
    cases hx

include hds in
/-- Digits up to the end of a line are no time. -/
theorem refuses_datetime_digits : Refuses datetime (ds ++ '\n' :: tail) := by
  have htwo : TakesDigits twoDigits ('\n' :: tail) := takesDigits_twoDigits notDigit_head_newline
  have hdash : ∀ ds : List Char, (∀ d ∈ ds, d.isDigit = true) →
      Refuses (mark '-') (ds ++ '\n' :: tail) := fun ds hds =>
    refuses_mark (ne_head_digits hds (by decide) (by decide))
  have hcolon : ∀ ds : List Char, (∀ d ∈ ds, d.isDigit = true) →
      Refuses (mark ':') (ds ++ '\n' :: tail) := fun ds hds =>
    refuses_mark (ne_head_digits hds (by decide) (by decide))
  have hdate : Refuses date (ds ++ '\n' :: tail) :=
    ((htwo.bind htwo).part.bind_refuses (fun ds hds => (hdash ds hds).bind) hds).part
  have hclock : Refuses clock (ds ++ '\n' :: tail) :=
    (htwo.bind_refuses (fun ds hds => (hcolon ds hds).bind) hds).part
  exact (hdate.bind.orElse hclock).part

theorem reads_sign {d : Char} (h : d.isDigit = true) :
    Reads sign [] (d :: ahead) fun _ => True := by
  refine (Refuses.optional? (refuses_one fun x hx => ?_)).bind_nil fun _ _ => reads_pure trivial
  obtain rfl : d = x := Option.some.inj hx
  rw [Bool.or_eq_false_iff, decide_eq_false_iff_not, decide_eq_false_iff_not]
  constructor <;> (rintro rfl; cases h)

theorem refuses_moreDigit_newline : Refuses moreDigit ('\n' :: tail) :=
  (refuses_digit notDigit_head_newline).orElse (refuses_mark fun x hx => by cases hx; decide).bind

include hds in
theorem readsEach_moreDigit :
    ReadsEach moreDigit (fun d => [d]) (fun _ _ => True) ('\n' :: tail) ds :=
  readsEach_of_forall (fun d _ => List.cons_ne_nil d [])
    (fun d hd _ => (reads_digit (hds d hd)).orElse) refuses_moreDigit_newline

/-- A whole number up to the end of a line. Only a number of one digit may start with a zero. -/
theorem reads_integer {d : Char} (hd : d.isDigit = true) (hds : ∀ d ∈ ds, d.isDigit = true)
    (hlead : ds = [] ∨ isLeadDigit d = true) :
    Reads integer (d :: ds) ('\n' :: tail) fun _ => True := by
  refine Reads.part ((reads_sign hd).nil_bind fun _ _ => Reads.part ?_)
  cases ds with
  | nil =>
    -- one digit, of whatever value
    refine Refuses.orElse_reads ?_ (reads_digit hd)
    cases hrange : isLeadDigit d with
    | true =>
      exact (reads_one hrange).bind_refuses fun _ _ =>
        (Refuses.many1 refuses_moreDigit_newline).bind
    | false => exact (refuses_one fun x hx => by cases hx; exact hrange).bind
  | cons e ds =>
    have hrange : isLeadDigit d = true := hlead.resolve_left (List.cons_ne_nil e ds)
    have heach : ReadsEach moreDigit (fun d => [d]) (fun _ _ => True) ('\n' :: tail) (e :: ds) :=
      readsEach_moreDigit hds
    have hmore := heach.many1
    rw [List.flatMap_singleton'] at hmore
    refine Reads.orElse ((reads_one hrange).bind fun _ _ => ?_)
    exact hmore.bind_nil fun _ _ => reads_pure trivial

/-- A whole number is no number with a fraction. -/
theorem refuses_float {d : Char} (hd : d.isDigit = true) (hds : ∀ d ∈ ds, d.isDigit = true)
    (hlead : ds = [] ∨ isLeadDigit d = true) : Refuses float (d :: ds ++ '\n' :: tail) := by
  have hfraction : Refuses fraction ('\n' :: tail) :=
    (refuses_mark fun x hx => by cases hx; decide).bind.part
  have hexponent : Refuses exponent ('\n' :: tail) :=
    (refuses_one fun x hx => by cases hx; rfl).bind.part
  refine Refuses.part ((reads_integer hd hds hlead).bind_refuses fun _ _ => ?_)
  exact Refuses.orElse hfraction.bind (hfraction.optional?.bind_refuses fun _ _ => hexponent)

end LineEnd

/-- A number that is not zero has no zero in front. -/
theorem exists_toDigits {n : Nat} (hn : n ≠ 0) :
    ∃ d ds, Nat.toDigits 10 n = d :: ds ∧ isLeadDigit d = true := by
  induction n using Nat.strongRecOn with
  | ind n ih =>
    by_cases hsmall : n < 10
    · have hlead : ∀ n < 10, n ≠ 0 → isLeadDigit n.digitChar = true := by decide
      exact ⟨n.digitChar, [], Nat.toDigits_of_lt_base hsmall, hlead n hsmall hn⟩
    · obtain ⟨d, ds, hdigits, hlead⟩ := ih (n / 10) (by omega) (by omega)
      refine ⟨d, ds ++ [(n % 10).digitChar], ?_, hlead⟩
      rw [Nat.toDigits_of_base_le (by decide) (by omega), hdigits, List.cons_append]

/-- The digits of a number are read as a whole number, and not as a time or as another number. -/
theorem readsOnly_integer (n : Nat) (tail : List Char) :
    Refuses datetime (Nat.toDigits 10 n ++ '\n' :: tail) ∧
      Refuses float (Nat.toDigits 10 n ++ '\n' :: tail) ∧
      Reads integer (Nat.toDigits 10 n) ('\n' :: tail) fun _ => True := by
  have hdigits : ∀ d ∈ Nat.toDigits 10 n, d.isDigit = true := fun d hd =>
    Nat.isDigit_of_mem_toDigits (by decide) (by decide) hd
  have hlead : ∃ d ds, Nat.toDigits 10 n = d :: ds ∧ (ds = [] ∨ isLeadDigit d = true) := by
    by_cases hn : n = 0
    · exact ⟨'0', [], by rw [hn, Nat.toDigits_zero], .inl rfl⟩
    · obtain ⟨d, ds, hcons, hd⟩ := exists_toDigits hn
      exact ⟨d, ds, hcons, .inr hd⟩
  obtain ⟨d, ds, hcons, hlead⟩ := hlead
  rw [hcons] at hdigits ⊢
  obtain ⟨hd, hds⟩ := List.forall_mem_cons.mp hdigits
  exact ⟨refuses_datetime_digits hdigits, refuses_float hd hds hlead, reads_integer hd hds hlead⟩

/-- What does not start with a digit or a sign is no time and no number. -/
theorem refuses_numbers {x : Char} (hdigit : x.isDigit = false) (hminus : x ≠ '-')
    (hplus : x ≠ '+') :
    Refuses datetime (x :: tail) ∧ Refuses float (x :: tail) ∧ Refuses integer (x :: tail) := by
  have hhead : ∀ y ∈ (x :: tail).head?, y.isDigit = false := by
    rintro y ⟨⟩
    exact hdigit
  have htwo : Refuses twoDigits (x :: tail) := (refuses_digit hhead).bind.part
  have hsign : Reads sign [] (x :: tail) fun _ => True := by
    refine (Refuses.optional? (refuses_one ?_)).bind_nil fun _ _ => reads_pure trivial
    rintro y ⟨⟩
    simp [hminus, hplus]
  have hinteger : Refuses integer (x :: tail) := by
    refine Refuses.part (hsign.bind_refuses fun _ _ => Refuses.part (Refuses.orElse ?_ ?_))
    · refine (refuses_one fun y hy => ?_).bind
      cases hlead : isLeadDigit y with
      | true => exact Bool.noConfusion ((hhead y hy).symm.trans (isDigit_of_isLeadDigit hlead))
      | false => exact hlead
    · exact refuses_digit hhead
  refine ⟨Refuses.part (Refuses.orElse ?_ ?_), hinteger.bind.part, hinteger⟩
  · exact (Refuses.bind (Refuses.part htwo.bind)).part.bind
  · exact htwo.bind.part

/-! ### Values -/

theorem Rule.Refuses.numeral {α : Type} {r : Rule α} (h : Refuses r ahead) :
    Refuses (numeral r) ahead := h.textOf.bind

theorem Rule.Reads.numeral {α : Type} {r : Rule α} {text : List Char} {P : α → Prop}
    (h : Reads r text ahead P) (hplain : '_' ∉ text) :
    Reads (numeral r) text ahead (· = Bytes.ofChars text) := by
  refine h.textOf.bind_nil fun read hread => reads_pure ?_
  rw [hread, List.filter_eq_self.mpr]
  intro c hc
  rw [decide_eq_true_iff]
  rintro rfl
  exact hplain hc

/-- What stands for a value of a kind, up to the end of a line. -/
structure IsValueText (text : List Char) (P : Value → Prop) : Prop where
  solid : ∃ x rest, text = x :: rest ∧ isBlank x = false
  reads : ∀ tail, Reads value text ('\n' :: tail) P

theorem isValueText_integer (n : Nat) :
    IsValueText (Nat.toDigits 10 n) (· = .integer (Bytes.ofChars (Nat.toDigits 10 n))) := by
  have hsolid : ∃ x rest, Nat.toDigits 10 n = x :: rest ∧ isBlank x = false := by
    obtain ⟨x, rest, hdigits⟩ := List.exists_cons_of_ne_nil (Nat.toDigits_ne_nil (n := n) (b := 10))
    have hx : x.isDigit = true :=
      Nat.isDigit_of_mem_toDigits (n := n) (b := 10) (by decide) (by decide) (by rw [hdigits]; simp)
    refine ⟨x, rest, hdigits, ?_⟩
    rw [isBlank, Bool.or_eq_false_iff, decide_eq_false_iff_not, decide_eq_false_iff_not]
    constructor <;> (rintro rfl; cases hx)
  refine ⟨hsolid, fun tail => ?_⟩
  obtain ⟨hdatetime, hfloat, hinteger⟩ := readsOnly_integer n tail
  refine reads_get fun p => Reads.part ?_
  refine hdatetime.textOf.bind.orElse_reads (hfloat.numeral.bind.orElse_reads (Reads.orElse ?_))
  refine (hinteger.numeral Nat.underscore_not_in_toDigits).bind_nil fun digits hdigits => ?_
  exact reads_pure (by rw [hdigits])

theorem refuses_numbers_quote (tail : List Char) : Refuses datetime ('"' :: tail) ∧
    Refuses float ('"' :: tail) ∧ Refuses integer ('"' :: tail) :=
  refuses_numbers rfl (by decide) (by decide)

/-- A quoted text without foreign escapes. -/
theorem isValueText_string {cs : List Char} (hne : cs ≠ [])
    (h : ∀ c ∈ cs, Quoted.isPortable c = true) :
    IsValueText ('"' :: (cs.flatMap Quoted.spelling ++ ['"']))
      fun v => ∃ line, v = .string line (some (Bytes.ofChars cs)) := by
  refine ⟨⟨'"', _, rfl, rfl⟩, fun tail => ?_⟩
  obtain ⟨hdatetime, hfloat, hinteger⟩ :=
    refuses_numbers_quote (cs.flatMap Quoted.spelling ++ ['"'] ++ '\n' :: tail)
  refine reads_get fun p => Reads.part ?_
  refine hdatetime.textOf.bind.orElse_reads (hfloat.numeral.bind.orElse_reads ?_)
  refine hinteger.numeral.bind.orElse_reads (Reads.orElse ?_)
  refine (reads_string hne h).bind_nil fun text htext => reads_here.bind_nil fun line _ => ?_
  exact reads_pure ⟨line, by rw [htext]⟩

/-- A quoted text with a foreign escape is no value at all. -/
theorem refuses_value_string {cs : List Char} (h : ∃ c ∈ cs, Quoted.isPortable c = false) :
    Refuses value ('"' :: (cs.flatMap Quoted.spelling ++ tail)) := by
  obtain ⟨hdatetime, hfloat, hinteger⟩ :=
    refuses_numbers_quote (cs.flatMap Quoted.spelling ++ tail)
  refine refuses_get fun p => Refuses.part ?_
  refine hdatetime.textOf.bind.orElse (hfloat.numeral.bind.orElse ?_)
  refine hinteger.numeral.bind.orElse ((refuses_string h).bind.orElse ?_)
  -- neither a word nor an array nor a table starts with a quote
  refine Refuses.orElse ?_ (Refuses.orElse ?_ (Refuses.orElse ?_ ?_))
  · exact (refuses_word fun h => absurd (List.cons_prefix_cons.mp h).1 (by decide)).bind.part
  · exact (refuses_word fun h => absurd (List.cons_prefix_cons.mp h).1 (by decide)).bind.part
  · exact (refuses_mark fun x hx => by cases hx; decide).bind.part
  · exact (refuses_mark fun x hx => by cases hx; decide).bind.part

theorem refuses_string_of_head {x : Char} (hdouble : x ≠ '"') (hsingle : x ≠ '\'') :
    Refuses string (x :: tail) := by
  have hword : ∀ {y : Char} {w : List Char}, x ≠ y → ¬ (y :: w) <+: x :: tail := fun hy h =>
    hy (List.cons_prefix_cons.mp h).1.symm
  have hmark : ∀ {y : Char}, x ≠ y → ∀ z ∈ (x :: tail).head?, z ≠ y := by
    rintro y hy z ⟨⟩
    exact hy
  refine Refuses.part (Refuses.orElse ?_ (Refuses.orElse ?_ (Refuses.orElse ?_ ?_)))
  · exact (refuses_word (hword hsingle)).bind.part
  · exact (refuses_mark (hmark hsingle)).bind.part
  · exact (refuses_word (hword hdouble)).bind.part
  · exact (refuses_mark (hmark hdouble)).bind.part

/-- Before a letter, only words, arrays and tables are tried. -/
theorem reads_value_of_letter {x : Char} {text : List Char} {P : Value → Prop}
    (hdigit : x.isDigit = false) (hmarks : x ∉ "-+\"'".toList)
    (h : ∀ depth, Reads (part (do word "true".toList; return .boolean true)
      <|> part (do word "false".toList; return .boolean false)
      <|> array (valueFrom depth) <|> inlineTable (valueFrom depth)) (x :: text) ahead P) :
    Reads value (x :: text) ahead P := by
  have hmark : ∀ y ∈ "-+\"'".toList, x ≠ y := by
    rintro y hy rfl
    exact hmarks hy
  obtain ⟨hdatetime, hfloat, hinteger⟩ : Refuses datetime (x :: (text ++ ahead)) ∧
      Refuses float (x :: (text ++ ahead)) ∧ Refuses integer (x :: (text ++ ahead)) :=
    refuses_numbers hdigit (hmark '-' (by decide)) (hmark '+' (by decide))
  have hstring : Refuses string (x :: (text ++ ahead)) :=
    refuses_string_of_head (hmark '"' (by decide)) (hmark '\'' (by decide))
  refine reads_get fun p => Reads.part ?_
  refine hdatetime.textOf.bind.orElse_reads (hfloat.numeral.bind.orElse_reads ?_)
  exact hinteger.numeral.bind.orElse_reads (hstring.bind.orElse_reads (h p.size))

theorem isValueText_boolean (b : Bool) :
    IsValueText (if b then "true".toList else "false".toList) (· = .boolean b) := by
  refine ⟨by cases b <;> exact ⟨_, _, rfl, rfl⟩, fun tail => ?_⟩
  cases b with
  | true =>
    refine reads_value_of_letter (by decide) (by decide) fun depth => Reads.orElse (Reads.part ?_)
    exact (reads_word "true".toList).bind_nil fun _ _ => reads_pure rfl
  | false =>
    refine reads_value_of_letter (by decide) (by decide) fun depth => Refuses.orElse_reads ?_
      (Reads.orElse (Reads.part ?_))
    · exact (refuses_word fun h => absurd (List.cons_prefix_cons.mp h).1 (by decide)).bind.part
    · exact (reads_word "false".toList).bind_nil fun _ _ => reads_pure rfl

end Polish.Toml
