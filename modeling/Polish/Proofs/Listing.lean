import Polish.Machine.Listing
import Polish.Proofs.Lines
import Polish.Proofs.Numeral
import Polish.Proofs.Source
import Polish.Proofs.Words

/-!
# Reading a listing back

The code of a source is written as a listing and read back line by line. The names in it are words
of the source, but the words of a line end at white space of any script, and a line must be short.

* `Instr.IsProper`: the instructions in the code of a source.
* `Instr.trimmed`: the instruction with white space at the end of its name removed.
* `Instr.IsOneLine`, `assemble_listing`: the listing of instructions that take a line each is read
  line by line.
* `Instr.IsReadable`, `Instr.IsStorable`: what it takes for an instruction to be read back at all,
  and as itself.
* `assemble_listing_eq_ok`: a listing is read back exactly when every instruction is readable, and
  then trimmed.
-/

namespace Polish

/-! ### The code of a source -/

/-- An instruction that the code of a source can have. -/
inductive Instr.IsProper : Instr → Prop where
  | plain {o : Operation} (ho : o.operand = .none) : IsProper (.plain o)
  | push (v : Int64) : IsProper (.push v)
  | named {o : Operation} {name : Bytes} (ho : o.operand = .name) (hname : IsName name) :
      IsProper ⟨o.number, 0, name⟩

theorem Expr.isProper_of_compile {e : Expr} {code : List Instr} (h : e.compile = .ok code)
    (hnames : ∀ name ∈ e.vars, IsName name) : ∀ i ∈ code, i.IsProper := by
  induction e generalizing code with
  | missing => cases h
  | const span v =>
    cases h
    intro i hi
    rw [List.mem_singleton.mp hi]
    exact .push v
  | var span name =>
    cases h
    intro i hi
    rw [List.mem_singleton.mp hi]
    exact .named rfl (hnames name List.mem_cons_self)
  | binary span symbol l r ihl ihr =>
    obtain ⟨op, left, right, -, hl, hr, rfl⟩ := compile_binary_eq_ok.mp h
    intro i hi
    rw [List.mem_append, List.mem_append, List.mem_singleton] at hi
    rcases hi with (hi | hi) | rfl
    · exact ihl hl (fun name hname => hnames name (List.mem_append_left _ hname)) i hi
    · exact ihr hr (fun name hname => hnames name (List.mem_append_right _ hname)) i hi
    · exact .plain rfl
  | unary span symbol e ih =>
    obtain ⟨op, operand, -, he, rfl⟩ := compile_unary_eq_ok.mp h
    intro i hi
    rw [List.mem_append, List.mem_singleton] at hi
    rcases hi with hi | rfl
    · exact ih he hnames i hi
    · exact .plain rfl

namespace Action

mutual

theorem isProper_of_compile : ∀ (a : Action) {code : List Instr}, a.compile = .ok code →
    (∀ name ∈ a.names, IsName name) → ∀ i ∈ code, i.IsProper
  | missing, _, h, _ => by cases h
  | assign _ target rhs, _, h, hnames => by
    obtain ⟨value, hvalue, rfl⟩ := compile_assign_eq_ok.mp h
    intro i hi
    rw [List.mem_append, List.mem_singleton] at hi
    rcases hi with hi | rfl
    · exact Expr.isProper_of_compile hvalue
        (fun name hname => hnames name (List.mem_cons_of_mem _ hname)) i hi
    · exact .named rfl (hnames target List.mem_cons_self)
  | print _ e, _, h, hnames => by
    obtain ⟨value, hvalue, rfl⟩ := compile_print_eq_ok.mp h
    intro i hi
    rw [List.mem_append, List.mem_singleton] at hi
    rcases hi with hi | rfl
    · exact Expr.isProper_of_compile hvalue hnames i hi
    · exact .plain rfl
  | seq _ as, _, h, hnames => isProper_of_compileAll as h hnames

theorem isProper_of_compileAll : ∀ (as : List Action) {code : List Instr},
    compileAll as = .ok code → (∀ name ∈ namesAll as, IsName name) → ∀ i ∈ code, i.IsProper
  | [], _, h, _ => by
    cases h
    simp
  | a :: as, _, h, hnames => by
    obtain ⟨first, rest, hfirst, hrest, rfl⟩ := compileAll_cons_eq_ok.mp h
    intro i hi
    rcases List.mem_append.mp hi with hi | hi
    · exact isProper_of_compile a hfirst
        (fun name hname => hnames name (List.mem_append_left _ hname)) i hi
    · exact isProper_of_compileAll as hrest
        (fun name hname => hnames name (List.mem_append_right _ hname)) i hi

end

end Action

/-! ### The text of an instruction -/

theorem isGapByte_of_isWordByte {b : UInt8} (h : isWordByte b = true) : isGapByte b = false := by
  rw [isWordByte, Bool.and_eq_true, Bool.not_eq_true'] at h
  exact h.1

namespace Operation

theorem ofMnemonic?_mnemonic (o : Operation) : ofMnemonic? o.mnemonic = some o := by
  match o with
  | push | load | store | print => rfl
  | binary op => cases op <;> rfl
  | unary op => cases op <;> rfl

/-- The opcodes with an operation are those below 10. -/
theorem ofNumber?_eq_none_iff {n : UInt8} : ofNumber? n = none ↔ 10 ≤ n := by
  simp only [ofNumber?, List.find?_eq_none, all, List.forall_mem_cons, number, beq_iff_eq,
    ← UInt8.toNat_inj, UInt8.le_iff_toNat_le, UInt8.reduceToNat, List.not_mem_nil, false_imp_iff,
    implies_true, and_true]
  omega

/-- A mnemonic is a word of capital letters, and starts neither the header nor a comment. -/
theorem mnemonic_spec (o : Operation) :
    (∃ b rest, o.mnemonic = b :: rest ∧ b ≠ 0x43 ∧ b ≠ 0x3B) ∧
      ∀ b ∈ o.mnemonic, b < 0x80 ∧ isWordByte b = true := by
  match o with
  | push | load | store | print => exact ⟨⟨_, _, rfl, by decide, by decide⟩, by decide +kernel⟩
  | binary op => cases op <;> exact ⟨⟨_, _, rfl, by decide, by decide⟩, by decide +kernel⟩
  | unary op => cases op <;> exact ⟨⟨_, _, rfl, by decide, by decide⟩, by decide +kernel⟩

theorem startsSolid_mnemonic (o : Operation) :
    o.mnemonic.StartsSolid ∧ o.mnemonic.isSolid = true := by
  obtain ⟨⟨b, rest, hfirst, -⟩, hbytes⟩ := o.mnemonic_spec
  refine Bytes.startsSolid_of_ascii (by rw [hfirst]; simp) fun b hb => ?_
  exact ⟨(hbytes b hb).1, isGapByte_of_isWordByte (hbytes b hb).2⟩

/-- A line that starts with a mnemonic holds an instruction. -/
theorem isSkipped_mnemonic (o : Operation) (rest : Bytes) :
    isSkipped (o.mnemonic ++ rest) = false := by
  obtain ⟨⟨b, more, hfirst, hheader, hcomment⟩, -⟩ := o.mnemonic_spec
  have hsemicolon : (0x3B == b) = false := by simp [hcomment.symm]
  rw [hfirst, isSkipped, Bool.or_eq_false_iff, Bool.or_eq_false_iff]
  refine ⟨⟨rfl, beq_false_of_ne fun h => hheader (List.cons.inj h).1⟩, ?_⟩
  show (0x3B == b && _) = false
  rw [hsemicolon, Bool.false_and]

end Operation

/-- A written number is a word. -/
theorem Decimal.ofInt64_ascii (v : Int64) :
    ofInt64 v ≠ [] ∧ ∀ b ∈ ofInt64 v, b < 0x80 ∧ isWordByte b = true := by
  have hsmall : ∀ n < 58, 48 ≤ n → UInt8.ofNat n < 0x80 ∧ isWordByte (UInt8.ofNat n) = true := by
    decide
  have hdigits : ∀ n, ∀ b ∈ ofNat n, b < 0x80 ∧ isWordByte b = true := by
    intro n b hb
    have hdigit := isDigit_iff.mp ((isNumeral_iff.mp (isNumeral_ofNat n).1).2 b hb)
    have hword := hsmall b.toNat (by omega) (by omega)
    rwa [UInt8.ofNat_toNat] at hword
  unfold ofInt64
  cases v.toInt with
  | ofNat n => exact ⟨(isNumeral_iff.mp (isNumeral_ofNat n).1).1, hdigits n⟩
  | negSucc n =>
    refine ⟨List.cons_ne_nil _ _, fun b hb => ?_⟩
    rcases List.mem_cons.mp hb with rfl | hb
    · decide
    · exact hdigits _ b hb

theorem Decimal.startsSolid_ofInt64 (v : Int64) :
    (ofInt64 v).StartsSolid ∧ (ofInt64 v).isSolid = true := by
  obtain ⟨hne, hascii⟩ := ofInt64_ascii v
  exact Bytes.startsSolid_of_ascii hne fun b hb =>
    ⟨(hascii b hb).1, isGapByte_of_isWordByte (hascii b hb).2⟩

theorem IsName.startsSolid {name : Bytes} (h : IsName name) : name.StartsSolid := by
  obtain ⟨hidentifier, hbytes, hformed⟩ := h
  cases name with
  | nil => cases hidentifier
  | cons b rest =>
    have hletter := isLetter_iff.mp hidentifier
    have hascii : b < 0x80 := by
      rw [UInt8.lt_iff_toNat_lt]
      show b.toNat < 128
      omega
    exact Bytes.startsSolid_of_isWellFormed hascii
      (isGapByte_of_isWordByte (hbytes b List.mem_cons_self)) hformed

namespace Instr

/-- The instruction with white space at the ends of its name removed. -/
def trimmed (i : Instr) : Instr := { i with name := i.name.trim }

variable {o : Operation}

theorem text_plain (ho : o.operand = .none) : (plain o).text = o.mnemonic := by
  rw [text, operation?, plain, Operation.ofNumber?_number]
  simp only [ho]

theorem text_push (v : Int64) :
    (push v).text = Operation.push.mnemonic ++ "\t" ++ Decimal.ofInt64 v := rfl

theorem text_named (ho : o.operand = .name) (name : Bytes) :
    text ⟨o.number, 0, name⟩ = o.mnemonic ++ "\t" ++ name := by
  rw [text, operation?, Operation.ofNumber?_number]
  simp only [ho]

/-- The text of an instruction is trimmed to the text of the trimmed instruction, which is an
instruction line. -/
theorem IsProper.trim_text {i : Instr} (h : i.IsProper) :
    i.text.trim = i.trimmed.text ∧ isSkipped i.trimmed.text = false := by
  cases h with
  | @plain o ho =>
    obtain ⟨hstart, hsolid⟩ := o.startsSolid_mnemonic
    have htext : (Instr.plain o).trimmed.text = o.mnemonic := text_plain ho
    rw [htext, text_plain ho, Bytes.trim_of_isSolid hstart hsolid]
    have hskip := o.isSkipped_mnemonic []
    rw [List.append_nil] at hskip
    exact ⟨rfl, hskip⟩
  | push v =>
    obtain ⟨hstart, hsolid⟩ := Decimal.startsSolid_ofInt64 v
    have htext : (Instr.push v).trimmed.text = _ := text_push v
    rw [htext, text_push, Bytes.trim_line Operation.push.startsSolid_mnemonic.1 hstart,
      Bytes.trim_of_isSolid hstart hsolid, List.append_assoc]
    exact ⟨rfl, Operation.push.isSkipped_mnemonic _⟩
  | @named o name ho hname =>
    have htext : (trimmed ⟨o.number, 0, name⟩).text = _ := text_named ho name.trim
    rw [htext, text_named ho, Bytes.trim_line o.startsSolid_mnemonic.1 hname.startsSolid,
      List.append_assoc]
    exact ⟨rfl, o.isSkipped_mnemonic _⟩

/-- The line of an instruction of a source is read as the trimmed instruction, unless the name in it
is more than one word. -/
theorem IsProper.ofLine_text {i : Instr} (h : i.IsProper) :
    (i.name.trim.isSolid = true → ofLine i.trimmed.text = .ok i.trimmed) ∧
      (i.name.trim.isSolid = false → ∃ f, ofLine i.trimmed.text = .error f) := by
  cases h with
  | @plain o ho =>
    obtain ⟨hstart, hsolid⟩ := o.startsSolid_mnemonic
    have htext : (Instr.plain o).trimmed.text = o.mnemonic := text_plain ho
    rw [htext, ofLine, Bytes.fields_of_isSolid hstart hsolid]
    simp only [Operation.ofMnemonic?_mnemonic, Operation.assemble, ho]
    exact ⟨fun _ => rfl, fun hblank => by cases hblank⟩
  | push v =>
    obtain ⟨hstart, hsolid⟩ := Decimal.startsSolid_ofInt64 v
    obtain ⟨hpush, hpushsolid⟩ := Operation.push.startsSolid_mnemonic
    have htext : (Instr.push v).trimmed.text = _ := text_push v
    rw [htext, ofLine, Bytes.fields_line hpush hpushsolid hstart,
      Bytes.fields_of_isSolid hstart hsolid]
    simp only [Operation.ofMnemonic?_mnemonic, Operation.assemble, Operation.operand,
      Decimal.readInt64?_ofInt64]
    exact ⟨fun _ => rfl, fun hblank => by cases hblank⟩
  | @named o name ho hname =>
    obtain ⟨hstart, hsolid⟩ := o.startsSolid_mnemonic
    have htrim := hname.startsSolid.trim
    have htext : (trimmed ⟨o.number, 0, name⟩).text = _ := text_named ho name.trim
    rw [htext, ofLine, Bytes.fields_line hstart hsolid htrim]
    constructor
    · intro hname
      rw [Bytes.fields_of_isSolid htrim hname]
      simp only [Operation.ofMnemonic?_mnemonic, Operation.assemble, ho]
      rfl
    · intro hblank
      obtain ⟨a, b, rest, hfields⟩ := Bytes.fields_of_not_isSolid hname.startsSolid hblank
      rw [hfields]
      simp only [Operation.ofMnemonic?_mnemonic, Operation.assemble, ho]
      exact ⟨_, rfl⟩

/-- No byte of the instruction's text ends a line or is dropped there. -/
def IsOneLine (i : Instr) : Prop := ∀ b ∈ i.text, b ≠ Bytes.newline ∧ b ≠ 0x0D

theorem stays_of_isWordByte {b : UInt8} (h : isWordByte b = true) :
    b ≠ Bytes.newline ∧ b ≠ 0x0D := by
  constructor
  · rintro rfl
    exact absurd h (by decide)
  · rintro rfl
    exact absurd h (by decide)

/-- A mnemonic with an operand is one line if the operand is. -/
theorem stays_of_operand {w : Bytes} (hw : ∀ b ∈ w, b ≠ Bytes.newline ∧ b ≠ 0x0D) :
    ∀ b ∈ o.mnemonic ++ "\t" ++ w, b ≠ Bytes.newline ∧ b ≠ 0x0D := by
  intro b hb
  rw [List.mem_append, List.mem_append] at hb
  rcases hb with (hb | hb) | hb
  · exact stays_of_isWordByte (o.mnemonic_spec.2 b hb).2
  · rw [List.mem_singleton.mp hb]
    decide
  · exact hw b hb

theorem IsProper.isOneLine {i : Instr} (h : i.IsProper) : i.IsOneLine := by
  cases h with
  | @plain o ho =>
    rw [IsOneLine, text_plain ho]
    exact fun b hb => stays_of_isWordByte (o.mnemonic_spec.2 b hb).2
  | push v =>
    exact stays_of_operand fun b hb => stays_of_isWordByte ((Decimal.ofInt64_ascii v).2 b hb).2
  | @named o name ho hname =>
    rw [IsOneLine, text_named ho]
    exact stays_of_operand fun b hb => stays_of_isWordByte (hname.bytes b hb)

end Instr

/-! ### The lines of a listing -/

theorem lines_flatMap_line {code : List Instr} (h : ∀ i ∈ code, i.IsOneLine) (rest : Bytes) :
    Bytes.lines (code.flatMap Instr.line ++ rest) = code.map Instr.text ++ rest.lines := by
  have htext : code.flatMap Instr.line = (code.map Instr.text).flatMap (· ++ [Bytes.newline]) := by
    rw [List.flatMap_map]
    rfl
  rw [htext]
  refine Bytes.lines_append _ (fun line hline hmem => ?_) rest
  obtain ⟨i, hi, rfl⟩ := List.mem_map.mp hline
  exact (h i hi _ hmem).1 rfl

/-- A listing has a blank line, the header, a line for each instruction and a blank line. -/
theorem split_listing {code : List Instr} (h : ∀ i ∈ code, i.IsOneLine) :
    Line.split (listing code) = [] :: listingHeader :: (code.map Instr.text ++ [[]]) := by
  have hblank : Bytes.lines "\n" = [[], []] := rfl
  have hheader : ∀ b ∈ listingHeader, b ≠ Bytes.newline := by decide +kernel
  have htext : listing code
      = ([] : Bytes) ++ "\n" ++ (listingHeader ++ "\n" ++ (code.flatMap Instr.line ++ "\n")) := by
    rw [listing, List.nil_append, List.append_assoc, List.append_assoc, List.append_assoc,
      List.append_assoc]
  have hlines : (listing code).lines
      = ([] :: listingHeader :: (code.map Instr.text ++ [[]])) ++ [[]] := by
    rw [htext, Bytes.lines_append_newline (by simp), Bytes.lines_append_newline hheader,
      lines_flatMap_line h, hblank, List.append_cons]
    rfl
  rw [Line.split, hlines, if_pos List.getLast?_concat, List.dropLast_concat]

/-- An instruction of a source that can be read back: its name, trimmed, is one word, and its line
is not too long. -/
def Instr.IsReadable (i : Instr) : Prop :=
  i.name.trim.isSolid = true ∧ i.text.length < Line.limit

/-- An instruction of a source that is read back as itself: its name holds no white space, and its
line is not too long. -/
def Instr.IsStorable (i : Instr) : Prop :=
  i.name.isSolid = true ∧ i.text.length < Line.limit

theorem Line.fits_iff {l : Bytes} : fits l = true ↔ l.length < limit := by
  rw [fits, decide_eq_true_eq]

theorem Line.readable_of_short {text : Bytes} (h : tooLong text = false) :
    readable text = (split text).map chomp := by
  rw [readable, List.takeWhile_eq_self_iff.mpr]
  intro line hline
  simpa using List.any_eq_false.mp h line hline

theorem Line.chomp_text {i : Instr} (h : i.IsOneLine) : chomp i.text = i.text := by
  rw [chomp, if_neg]
  intro hlast
  exact (h 0x0D (List.mem_of_getLast? hlast)).2 rfl

/-- Reading a listing is stopped by a long line exactly when some instruction has one. -/
theorem tooLong_listing {code : List Instr} (h : ∀ i ∈ code, i.IsOneLine) :
    Line.tooLong (listing code) = false ↔ ∀ i ∈ code, i.text.length < Line.limit := by
  have hheader : (!Line.fits listingHeader) = false := by decide
  have hblank : (!Line.fits []) = false := by decide
  rw [Line.tooLong, split_listing h, List.any_cons, List.any_cons, List.any_append, List.any_map,
    List.any_cons, List.any_nil, hheader, hblank, Bool.false_or, Bool.false_or, Bool.or_false,
    Bool.or_false, List.any_eq_false]
  simp only [Function.comp_apply, Bool.not_eq_true, Bool.not_eq_false', Line.fits_iff]

theorem readable_listing {code : List Instr} (h : ∀ i ∈ code, i.IsOneLine)
    (hfits : ∀ i ∈ code, i.text.length < Line.limit) :
    Line.readable (listing code) = [] :: listingHeader :: (code.map Instr.text ++ [[]]) := by
  have hchomp : (code.map Instr.text).map Line.chomp = code.map Instr.text := by
    rw [List.map_map]
    exact List.map_congr_left fun i hi => Line.chomp_text (h i hi)
  rw [Line.readable_of_short ((tooLong_listing h).mpr hfits), split_listing h, List.map_cons,
    List.map_cons, List.map_append, hchomp]
  rfl

/-- A listing without long lines is read from its third line on: the blank line and the header are
skipped. -/
theorem assemble_listing {code : List Instr} (h : ∀ i ∈ code, i.IsOneLine)
    (hfits : ∀ i ∈ code, i.text.length < Line.limit) (file : Bytes) :
    assemble file (listing code) = assembleLines file 3 (code.map Instr.text ++ [[]]) := by
  have hskip : assembleLines file 1 (Line.readable (listing code))
      = assembleLines file 3 (code.map Instr.text ++ [[]]) := by
    rw [readable_listing h hfits]
    rfl
  rw [assemble, hskip, (tooLong_listing h).mpr hfits]
  cases assembleLines file 3 (code.map Instr.text ++ [[]]) <;> rfl

/-- A listing that is read has no long line. -/
theorem length_text_of_assemble {code prog : List Instr} (h : ∀ i ∈ code, i.IsOneLine)
    {file : Bytes} (hread : assemble file (listing code) = .ok prog) :
    ∀ i ∈ code, i.text.length < Line.limit := by
  obtain ⟨read, -, hprog⟩ := Result.bind_eq_ok.mp hread
  split at hprog
  · cases hprog
  · next hlong => exact (tooLong_listing h).mp (Bool.eq_false_iff.mpr hlong)

/-- The lines of instructions are read back exactly when each trimmed name is one word. -/
theorem assembleLines_eq_ok {code prog : List Instr} (h : ∀ i ∈ code, i.IsProper) (file : Bytes)
    (number : Nat) :
    assembleLines file number (code.map Instr.text ++ [[]]) = .ok prog ↔
      (∀ i ∈ code, i.name.trim.isSolid = true) ∧ prog = code.map Instr.trimmed := by
  induction code generalizing prog number with
  | nil =>
    have hblank : assembleLines file number [[]] = .ok [] := rfl
    rw [List.map_nil, List.nil_append, hblank, Except.ok.injEq, List.map_nil]
    exact ⟨fun hprog => ⟨by simp, hprog.symm⟩, fun hprog => hprog.2.symm⟩
  | cons i code ih =>
    have hi := h i List.mem_cons_self
    have hrest : ∀ rest, assembleLines file (number + 1) (code.map Instr.text ++ [[]]) = .ok rest ↔
        (∀ j ∈ code, j.name.trim.isSolid = true) ∧ rest = code.map Instr.trimmed := fun rest =>
      ih (fun j hj => h j (List.mem_cons_of_mem i hj)) (number + 1)
    obtain ⟨htrim, hskip⟩ := hi.trim_text
    rw [List.map_cons, List.cons_append, assembleLines, htrim, hskip, if_neg (by decide),
      List.forall_mem_cons]
    cases hsolid : i.name.trim.isSolid with
    | false =>
      obtain ⟨f, hf⟩ := hi.ofLine_text.2 hsolid
      rw [hf]
      constructor
      · intro hprog
        cases hprog
      · rintro ⟨⟨hfalse, -⟩, -⟩
        cases hfalse
    | true =>
      rw [hi.ofLine_text.1 hsolid]
      constructor
      · intro hprog
        obtain ⟨rest, hlines, rfl⟩ := Result.map_eq_ok.mp hprog
        obtain ⟨hnames, rfl⟩ := (hrest rest).mp hlines
        exact ⟨⟨rfl, hnames⟩, rfl⟩
      · rintro ⟨⟨-, hnames⟩, rfl⟩
        exact Result.map_eq_ok.mpr ⟨_, (hrest _).mpr ⟨hnames, rfl⟩, rfl⟩

/-- **Reading back.** The listing of a source's code is read back exactly when every instruction is
readable, and what is read is the code with trimmed names. -/
theorem assemble_listing_eq_ok {code prog : List Instr} (h : ∀ i ∈ code, i.IsProper)
    (file : Bytes) :
    assemble file (listing code) = .ok prog ↔
      (∀ i ∈ code, i.IsReadable) ∧ prog = code.map Instr.trimmed := by
  have hlines : ∀ i ∈ code, i.IsOneLine := fun i hi => (h i hi).isOneLine
  constructor
  · intro hread
    have hfits := length_text_of_assemble hlines hread
    rw [assemble_listing hlines hfits, assembleLines_eq_ok h] at hread
    exact ⟨fun i hi => ⟨hread.1 i hi, hfits i hi⟩, hread.2⟩
  · rintro ⟨hreadable, rfl⟩
    rw [assemble_listing hlines fun i hi => (hreadable i hi).2, assembleLines_eq_ok h]
    exact ⟨fun i hi => (hreadable i hi).1, rfl⟩

end Polish
