import Polish.Proofs.TomlValues
import Polish.Toml.Table

/-!
# Lines of keys and values

A text of lines with a key and a value each is a TOML document, and its table has these keys with
their values, if no key is used twice. A line whose value cannot be read counts as an empty one at
first, since an empty line is what is tried last; then the document must end there, and it does not.

* `Toml.Written`: a pair as it is written, with what its value then is.
* `Toml.StopsLines`: where no further line can be read.
* `Toml.reads_items`, `Toml.refuses_items`: what a text of lines is read as.
* `Toml.Assembly.foldlM_take`: pairs with different keys are added one after the other.
* `Toml.table_documentText`, `Toml.table_error`: the table of a text of lines.
-/

namespace Polish.Toml

open Rule

variable {ahead tail : List Char}

/-! ### Lines -/

/-- Can the characters stand for a key without quotes? -/
structure IsPlainKey (name : List Char) : Prop where
  ne_nil : name ≠ []
  chars : ∀ c ∈ name, isKeyChar c = true

/-- A pair as it is written, with what its value then is. -/
structure Written where
  key : List Char
  value : List Char
  kind : Value → Prop

namespace Written

/-- The line of a pair, without its end. -/
def text (w : Written) : List Char := w.key ++ (' ' :: '=' :: ' ' :: w.value)

/-- The key and the value can be read. -/
structure IsReadable (w : Written) : Prop where
  key : IsPlainKey w.key
  value : IsValueText w.value w.kind

/-- The item is the pair. -/
def IsItem (w : Written) (item : Item) : Prop :=
  ∃ keyLine v line, item = .pair ⟨some (Bytes.ofChars w.key), keyLine⟩ v line ∧ w.kind v

end Written

section Lines

variable {name : List Char} {w : Written}

theorem reads_key (h : IsPlainKey name) (hahead : ∀ x ∈ ahead.head?, isKeyChar x = false) :
    Reads key name ahead fun k => ∃ line, k = ⟨some (Bytes.ofChars name), line⟩ := by
  obtain ⟨c, cs, rfl⟩ := List.exists_cons_of_ne_nil h.ne_nil
  obtain ⟨hc, hcs⟩ := List.forall_mem_cons.mp h.chars
  refine Reads.part (Reads.orElse (Reads.part ((reads_one hc).bind fun first hfirst => ?_)))
  refine (reads_stretch hcs hahead).bind_nil fun rest hrest => ?_
  refine reads_here.bind_nil fun line _ => reads_pure ⟨line, ?_⟩
  rw [hfirst, hrest]

theorem reads_blanks_nil (h : ∀ x ∈ ahead.head?, isBlank x = false) :
    Reads blanks [] ahead fun _ => True :=
  ((reads_stretch (List.forall_mem_nil _) h).bind_nil fun _ _ => reads_pure trivial).part

theorem reads_blanks_space (h : ∀ x ∈ ahead.head?, isBlank x = false) :
    Reads blanks [' '] ahead fun _ => True :=
  have hspace : ∀ x ∈ [' '], isBlank x = true := List.forall_mem_singleton.mpr rfl
  ((reads_stretch hspace h).bind_nil fun _ _ => reads_pure trivial).part

theorem reads_pair (h : w.IsReadable) : Reads pair w.text ('\n' :: tail) w.IsItem := by
  obtain ⟨key, value, kind⟩ := w
  obtain ⟨hkey, ⟨x, rest, rfl, hx⟩, hvalue⟩ := h
  have hkeyValue : Reads (keyValue Toml.value) (Written.text ⟨key, x :: rest, kind⟩) ('\n' :: tail)
      fun p => ∃ keyLine, p.1 = ⟨some (Bytes.ofChars key), keyLine⟩ ∧ kind p.2.1 := by
    refine Reads.part ((reads_key hkey ?_).bind fun k hk => ?_)
    · exact fun y hy => by cases hy; decide
    refine (reads_blanks_space fun y hy => by cases hy; decide).bind fun _ _ => ?_
    refine (reads_mark '=').bind fun _ _ => ?_
    refine (reads_blanks_space fun y hy => by cases hy; exact hx).bind fun _ _ => ?_
    refine (hvalue tail).bind_nil fun v hv => reads_here.bind_nil fun line _ => reads_pure ?_
    obtain ⟨keyLine, rfl⟩ := hk
    exact ⟨keyLine, rfl, hv⟩
  refine hkeyValue.bind_nil fun p hp => reads_pure ?_
  obtain ⟨k, v, line⟩ := p
  obtain ⟨keyLine, rfl, hv⟩ := hp
  exact ⟨keyLine, v, line, rfl, hv⟩

/-- A pair without a value does not fit. -/
theorem refuses_pair {x : Char} (hkey : IsPlainKey name) (hx : isBlank x = false)
    (hvalue : Refuses value (x :: ahead)) :
    Refuses pair (name ++ ' ' :: '=' :: ' ' :: x :: ahead) := by
  refine Refuses.bind (Refuses.part ((reads_key hkey ?_).bind_refuses fun k hk => ?_))
  · exact fun y hy => by cases hy; decide
  refine (reads_blanks_space fun y hy => by cases hy; decide).bind_refuses fun _ _ => ?_
  refine (reads_mark '=').bind_refuses fun _ _ => ?_
  refine (reads_blanks_space fun y hy => by cases hy; exact hx).bind_refuses fun _ _ => ?_
  exact hvalue.bind

/-! ### Documents -/

/-- Neither blanks nor a comment nor the head of a table starts here. -/
structure IsBare (ahead : List Char) : Prop where
  blank : ∀ x ∈ ahead.head?, isBlank x = false
  bracket : ∀ x ∈ ahead.head?, x ≠ '['
  hash : ∀ x ∈ ahead.head?, x ≠ '#'

/-- Neither a line end nor a line that is not empty starts here. -/
structure StopsLines (ahead : List Char) : Prop extends IsBare ahead where
  lineEnd : ∀ x ∈ ahead.head?, isLineEnd x = false
  pair : Refuses pair ahead

theorem isBare_newline : IsBare ('\n' :: tail) := by
  constructor <;> (rintro x ⟨⟩; decide)

theorem stopsLines_nil : StopsLines [] := by
  refine ⟨⟨?_, ?_, ?_⟩, ?_, ?_⟩
  · rintro x ⟨⟩
  · rintro x ⟨⟩
  · rintro x ⟨⟩
  · rintro x ⟨⟩
  · refine Refuses.bind (Refuses.part (Refuses.bind (Refuses.part (Refuses.orElse ?_ ?_))))
    · exact (refuses_one (by rintro x ⟨⟩)).bind.part
    · exact (refuses_mark (by rintro x ⟨⟩)).bind.part

/-- A key is no blank, no mark and no line end. -/
theorem isKeyChar_spec {c : Char} (h : isKeyChar c = true) :
    isBlank c = false ∧ c ≠ '[' ∧ c ≠ '#' ∧ isLineEnd c = false := by
  have hmarks : ∀ x ∈ " \t[#\r\n".toList, c ≠ x := by
    rintro x hx rfl
    have hmark : " \t[#\r\n".toList.all (!isKeyChar ·) = true := by decide
    have hkey := List.all_eq_true.mp hmark c hx
    rw [h] at hkey
    cases hkey
  simp only [isBlank, isLineEnd, Bool.or_eq_false_iff, decide_eq_false_iff_not]
  exact ⟨⟨hmarks _ (by decide), hmarks _ (by decide)⟩, hmarks _ (by decide), hmarks _ (by decide),
    hmarks _ (by decide), hmarks _ (by decide)⟩

theorem IsPlainKey.head (h : IsPlainKey name) :
    IsBare (name ++ ahead) ∧ ∀ x ∈ (name ++ ahead).head?, isLineEnd x = false := by
  obtain ⟨c, cs, rfl⟩ := List.exists_cons_of_ne_nil h.ne_nil
  obtain ⟨hblank, hbracket, hhash, hlineEnd⟩ := isKeyChar_spec (h.chars c List.mem_cons_self)
  refine ⟨⟨?_, ?_, ?_⟩, ?_⟩ <;> (rintro x ⟨⟩; assumption)

theorem Written.IsReadable.head (h : w.IsReadable) :
    IsBare (w.text ++ ahead) ∧ ∀ x ∈ (w.text ++ ahead).head?, isLineEnd x = false := by
  rw [Written.text, List.append_assoc]
  exact h.key.head

/-- Reading stops before a pair without a value. -/
theorem stopsLines_of_refuses_value {x : Char} (hkey : IsPlainKey name) (hx : isBlank x = false)
    (hvalue : Refuses value (x :: ahead)) :
    StopsLines (name ++ ' ' :: '=' :: ' ' :: x :: ahead) :=
  ⟨hkey.head.1, hkey.head.2, refuses_pair hkey hx hvalue⟩

theorem reads_lineRest (h : IsBare ahead) : Reads lineRest [] ahead fun _ => True := by
  have hcomment : Refuses comment ahead := (refuses_mark h.hash).bind.part
  exact (reads_blanks_nil h.blank).nil_bind fun _ _ =>
    hcomment.optional?.bind_nil fun _ _ => reads_pure trivial

theorem refuses_tableHead (h : IsBare ahead) : Refuses tableHead ahead := by
  refine Refuses.part (Refuses.orElse (refuses_mark h.bracket).bind.part ?_)
  refine (refuses_word ?_).bind.part
  rintro ⟨rest, rfl⟩
  exact h.bracket '[' rfl rfl

/-- A line with a pair. -/
theorem reads_expression_pair (h : w.IsReadable) :
    Reads expression w.text ('\n' :: tail) fun items => ∃ item, items = [item] ∧ w.IsItem item := by
  have hbare : IsBare (w.text ++ '\n' :: tail) := h.head.1
  refine Reads.part (Refuses.orElse_reads ?_ (Reads.orElse ?_))
  · exact (reads_blanks_nil hbare.blank).bind_refuses fun _ _ => (refuses_tableHead hbare).bind
  · refine (reads_blanks_nil hbare.blank).nil_bind fun _ _ => ?_
    refine (reads_pair h).bind_nil fun item hitem => ?_
    exact (reads_lineRest isBare_newline).bind_nil fun _ _ => reads_pure ⟨item, rfl, hitem⟩

/-- Where no pair can be read, a line counts as empty. -/
theorem reads_expression_nil (h : StopsLines ahead) : Reads expression [] ahead (· = []) := by
  have hbare := h.toIsBare
  refine Reads.part (Refuses.orElse_reads ?_ (Refuses.orElse_reads ?_ ?_))
  · exact (reads_blanks_nil hbare.blank).bind_refuses fun _ _ => (refuses_tableHead hbare).bind
  · exact (reads_blanks_nil hbare.blank).bind_refuses fun _ _ => h.pair.bind
  · exact (reads_lineRest hbare).bind_nil fun _ _ => reads_pure rfl

theorem reads_newline (h : ∀ x ∈ ahead.head?, isLineEnd x = false) :
    Reads newline ['\n'] ahead fun _ => True := by
  refine Reads.part ((reads_one rfl).bind_nil fun _ _ => ?_)
  exact (reads_stretch (List.forall_mem_nil _) h).bind_nil fun _ _ => reads_pure trivial

theorem refuses_newline (h : ∀ x ∈ ahead.head?, isLineEnd x = false) : Refuses newline ahead :=
  (refuses_one h).bind.part

/-- The end of a line with the line after it; after the last one there is nothing. -/
def pieceOf : Option Written → List Char
  | some w => '\n' :: w.text
  | none => ['\n']

/-- The items of the line after the end of a line. -/
def HasItems : Option Written → List Item → Prop
  | some w, items => ∃ item, items = [item] ∧ w.IsItem item
  | none, items => items = []

variable {ws : List Written}

/-- The lines, each with its end. -/
def documentText (ws : List Written) : List Char := ws.flatMap fun w => w.text ++ ['\n']

/-- After the first line, the text is cut before the line ends. -/
theorem cons_documentText (ws : List Written) :
    '\n' :: documentText ws = (ws.map some ++ [none]).flatMap pieceOf := by
  induction ws with
  | nil => rfl
  | cons w ws ih =>
    rw [List.map_cons, List.cons_append, List.flatMap_cons, ← ih, documentText, List.flatMap_cons,
      List.append_assoc]
    rfl

theorem readsEach_lines (h : ∀ w ∈ ws, w.IsReadable) (hstops : StopsLines ahead) :
    ReadsEach (do newline; expression) pieceOf HasItems ahead (ws.map some ++ [none]) := by
  induction ws with
  | nil =>
    refine ⟨List.cons_ne_nil _ _, ?_, (refuses_newline hstops.lineEnd).bind⟩
    exact (reads_newline hstops.lineEnd).bind_nil fun _ _ => reads_expression_nil hstops
  | cons w ws ih =>
    obtain ⟨hw, hws⟩ := List.forall_mem_cons.mp h
    refine ⟨List.cons_ne_nil _ _, ?_, ih hws⟩
    have hline : Reads (do newline; expression) ('\n' :: w.text)
        ('\n' :: (documentText ws ++ ahead)) (HasItems (some w)) :=
      (reads_newline hw.head.2).bind fun _ _ => reads_expression_pair hw
    rw [← List.cons_append, cons_documentText] at hline
    exact hline

/-- The items of the lines are those of the pairs. -/
theorem forall₂_flatten {xss : List (List Item)}
    (h : List.Forall₂ HasItems (ws.map some ++ [none]) xss) :
    List.Forall₂ Written.IsItem ws xss.flatten := by
  induction ws generalizing xss with
  | nil =>
    obtain _ | ⟨hnone, hrest⟩ := h
    cases hrest
    rw [List.flatten_singleton, hnone]
    exact .nil
  | cons w ws ih =>
    obtain _ | ⟨⟨item, hitems, hitem⟩, hrest⟩ := h
    rw [List.flatten_cons, hitems]
    exact .cons hitem (ih hrest)

theorem documentText_cons (w : Written) (ws : List Written) :
    documentText (w :: ws) = w.text ++ '\n' :: documentText ws := by
  rw [documentText, List.flatMap_cons, List.append_assoc]
  rfl

/-- The lines after the first one, up to where reading stops. -/
theorem reads_many_lines (h : ∀ w ∈ ws, w.IsReadable) (hstops : StopsLines ahead) :
    Reads (many do newline; expression) ('\n' :: documentText ws) ahead
      fun xss => List.Forall₂ Written.IsItem ws xss.flatten := by
  rw [cons_documentText]
  exact (readsEach_lines h hstops).many.mono fun _ hxss => forall₂_flatten hxss

/-- **Lines of pairs** are read as these pairs. -/
theorem reads_items (hw : w.IsReadable) (hws : ∀ w ∈ ws, w.IsReadable) :
    Reads items (documentText (w :: ws)) [] (List.Forall₂ Written.IsItem (w :: ws)) := by
  have hnewline : Refuses newline [] := refuses_newline stopsLines_nil.lineEnd
  rw [documentText_cons]
  refine (reads_expression_pair hw).bind fun first hfirst => ?_
  refine (reads_many_lines hws stopsLines_nil).bind_nil fun rest hrest => ?_
  refine hnewline.optional?.bind_nil fun _ _ => reads_finished.bind_nil fun _ _ => reads_pure ?_
  obtain ⟨item, rfl, hitem⟩ := hfirst
  exact .cons hitem hrest

/-- Lines with something that stops reading after them are no document. -/
theorem refuses_items (hw : w.IsReadable) (hws : ∀ w ∈ ws, w.IsReadable) (hstops : StopsLines ahead)
    (hahead : ahead ≠ []) : Refuses items (documentText (w :: ws) ++ ahead) := by
  have hnewline : Refuses newline ahead := refuses_newline hstops.lineEnd
  rw [documentText_cons, List.append_assoc]
  refine (reads_expression_pair hw).bind_refuses fun first _ => ?_
  refine (reads_many_lines hws hstops).bind_refuses fun rest _ => ?_
  exact hnewline.optional?.bind_refuses fun _ _ => (refuses_finished hahead).bind

end Lines

/-! ### Tables -/

/-- A value that holds no table, and no text whose escapes stand for nothing. -/
def Value.IsScalar : Value → Prop
  | .string _ (some _) | .integer _ | .boolean _ => True
  | _ => False

/-- The entry is the one of the pair. -/
def Written.IsEntry (w : Written) (e : Entry) : Prop :=
  ∃ v line, e = ⟨[Bytes.ofChars w.key], line, .value v⟩ ∧ w.kind v

namespace Assembly

theorem settle_of_isScalar {v : Value} (h : v.IsScalar) (inArray : Bool) (name : Bytes)
    (a : Assembly) : a.settle inArray name v = .ok (a, false) := by
  match v, h with
  | .string _ (some _), _ | .integer _, _ | .boolean _, _ => rw [settle]

/-- A pair whose key is not yet in use is added. -/
theorem take_pair {a : Assembly} (hcurrent : a.current = []) {key : Bytes}
    (hnew : a.find? [key] = none) {v : Value} (hv : v.IsScalar) (keyLine line : Nat) :
    a.take (.pair ⟨some key, keyLine⟩ v line)
      = .ok ⟨a.entries ++ [⟨[key], line, .value v⟩], []⟩ := by
  have hadd : a.addPair line key v = .ok ⟨a.entries ++ [⟨[key], line, .value v⟩], []⟩ := by
    rw [addPair, hcurrent, List.nil_append]
    dsimp only
    rw [hnew, add, hcurrent]
  rw [take, settlePairs, settle_of_isScalar hv]
  show ((a.addPair line key v).bind fun a => a.settlePairs false []) = _
  rw [hadd]
  show settlePairs false _ [] = _
  rw [settlePairs]

variable {ws : List Written}

/-- Pairs with different keys are added one after the other. -/
theorem foldlM_take (hscalar : ∀ w ∈ ws, ∀ v, w.kind v → v.IsScalar)
    (hkeys : (ws.map fun w => Bytes.ofChars w.key).Nodup) {items : List Item}
    (hitems : List.Forall₂ Written.IsItem ws items) (entries : List Entry)
    (hnew : ∀ w ∈ ws, ∀ e ∈ entries, e.path ≠ [Bytes.ofChars w.key]) :
    ∃ more, items.foldlM take ⟨entries, []⟩ = .ok ⟨entries ++ more, []⟩ ∧
      List.Forall₂ Written.IsEntry ws more := by
  induction hitems generalizing entries with
  | nil => exact ⟨[], by rw [List.append_nil]; rfl, .nil⟩
  | @cons w item ws items hitem _ ih =>
    obtain ⟨keyLine, v, line, rfl, hv⟩ := hitem
    rw [List.forall_mem_cons] at hscalar hnew
    rw [List.map_cons, List.nodup_cons] at hkeys
    have hfind : find? ⟨entries, []⟩ [Bytes.ofChars w.key] = none := by
      rw [find?, List.find?_eq_none]
      exact fun e he => by simpa using hnew.1 e he
    -- no later pair has the key that is now in use
    have hnext : ∀ x ∈ ws, ∀ e ∈ entries ++ [⟨[Bytes.ofChars w.key], line, .value v⟩],
        e.path ≠ [Bytes.ofChars x.key] := by
      intro x hx e he
      rcases List.mem_append.mp he with he | he
      · exact hnew.2 x hx e he
      · rw [List.mem_singleton.mp he]
        intro hpath
        exact hkeys.1 (List.mem_map.mpr ⟨x, hx, (List.cons.inj hpath).1.symm⟩)
    obtain ⟨more, hfold, hmore⟩ := ih hscalar.2 hkeys.2 _ hnext
    refine ⟨⟨[Bytes.ofChars w.key], line, .value v⟩ :: more, ?_, .cons ⟨v, line, rfl, hv⟩ hmore⟩
    rw [List.foldlM_cons, take_pair rfl hfind (hscalar.1 v hv)]
    show items.foldlM take _ = _
    rw [hfold, List.append_assoc]
    rfl

end Assembly

variable {w : Written} {ws : List Written}

theorem parse_documentText (hw : w.IsReadable) (hws : ∀ w ∈ ws, w.IsReadable) :
    ∃ items, parse (Bytes.ofChars (documentText (w :: ws))) = .ok items ∧
      List.Forall₂ Written.IsItem (w :: ws) items := by
  obtain ⟨items, hrun, hitems⟩ := (reads_items hw hws).runOn
  refine ⟨items, ?_, hitems⟩
  rw [parse, Bytes.chars_ofChars, hrun]
  rfl

/-- All pairs are of the outermost table. -/
theorem filter_entries {entries : List Entry} (h : List.Forall₂ Written.IsEntry ws entries) :
    (entries.filter fun e => e.path.length = 1) = entries := by
  induction h with
  | nil => rfl
  | cons hentry _ ih =>
    obtain ⟨v, line, rfl, -⟩ := hentry
    rw [List.filter_cons_of_pos rfl, ih]

/-- **The table of lines of pairs** has these pairs. -/
theorem table_documentText (h : ∀ x ∈ w :: ws, x.IsReadable)
    (hscalar : ∀ x ∈ w :: ws, ∀ v, x.kind v → v.IsScalar)
    (hkeys : ((w :: ws).map fun x => Bytes.ofChars x.key).Nodup) :
    ∃ entries, table (Bytes.ofChars (documentText (w :: ws))) = .ok entries ∧
      List.Forall₂ Written.IsEntry (w :: ws) entries := by
  obtain ⟨hw, hws⟩ := List.forall_mem_cons.mp h
  obtain ⟨items, hparse, hitems⟩ := parse_documentText hw hws
  obtain ⟨entries, hfold, hentries⟩ := Assembly.foldlM_take hscalar hkeys hitems [] (by simp)
  refine ⟨entries, ?_, hentries⟩
  rw [table, hparse]
  show ((items.foldlM Assembly.take ⟨[], []⟩).bind fun a =>
    .ok (a.entries.filter fun e => e.path.length = 1)) = _
  rw [hfold]
  exact congrArg Except.ok (filter_entries hentries)

/-- Lines with something that stops reading after them have no table. -/
theorem table_error (h : ∀ x ∈ w :: ws, x.IsReadable) (hstops : StopsLines ahead)
    (hahead : ahead ≠ []) : ∃ line, table (Bytes.ofChars (documentText (w :: ws) ++ ahead))
      = .error ⟨line, none, "invalid TOML syntax"⟩ := by
  obtain ⟨hw, hws⟩ := List.forall_mem_cons.mp h
  obtain ⟨reached, hrun⟩ := (refuses_items hw hws hstops hahead).runOn
  refine ⟨lineOf (documentText (w :: ws) ++ ahead) reached, ?_⟩
  rw [table, parse, Bytes.chars_ofChars, hrun]
  rfl

end Polish.Toml
