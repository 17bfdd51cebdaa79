import Polish.Proofs.Numeral
import Polish.Proofs.TomlText
import Polish.Settings.Load

/-!
# Saved settings

Settings are written as lines of names and values, and legal settings are read back from them: every
name is the name of a setting, no two names are the same, and every value is of the right kind and
is put where it came from. The first seven settings are always written. Modes and choices of colours
have known names; a log level is known by its name in lower case, so it can hold letters beyond
ASCII, but no control character. Only the history file is any text: it is left out when empty, which
is the default, and otherwise its quoted form is one that TOML reads, or it is the place where
reading stops.

* `Bytes.isPortable_of_toLower`: what is known of a text whose lower case is a word.
* `Setting.written`: the pair of a setting, with what its value is.
* `Setting.ofToml_flatMap_line`: what is read from the lines of some settings.
* `Settings.early_of_validate`: legal settings are written as TOML has them, up to the history file.
* `Settings.ofToml_toToml`, `Settings.ofToml_toToml_error`: the text of legal settings.
* `Settings.load_toToml_iff`: a file with the text of legal settings.
-/

namespace Polish

open Quoted (isPortable)

/-! ### Texts in lower case -/

/-- The characters of a text whose bytes are of ASCII and in a range are in this range. -/
theorem Bytes.range_of_mem_ofChars {cs : List Char} {low high : Nat} (hhigh : high < 0x80)
    (h : ∀ b ∈ ofChars cs, low ≤ b.toNat ∧ b.toNat ≤ high) {c : Char} (hc : c ∈ cs) :
    low ≤ c.toNat ∧ c.toNat ≤ high := by
  obtain ⟨b, rest, hform⟩ := List.exists_cons_of_ne_nil (String.utf8EncodeChar_ne_nil (c := c))
  have hb : b ∈ String.utf8EncodeChar c := by rw [hform]; exact List.mem_cons_self
  have hrange := h b (List.mem_flatMap.mpr ⟨c, hc, hb⟩)
  rcases mem_utf8EncodeChar hb with hlarge | hsame
  · omega
  · rwa [← hsame]

/-- A character whose small letter is one of ASCII. -/
theorem Quoted.isPortable_of_lowerChar {c : Char}
    (h : 0x61 ≤ (Text.lowerChar c).toNat ∧ (Text.lowerChar c).toNat ≤ 0x7A) :
    isPortable c = true := by
  by_cases hascii : c.toNat < 0x80
  · rw [Text.lowerChar, if_pos hascii] at h
    split at h
    · next hcapital =>
      rw [Bool.and_eq_true, decide_eq_true_iff, decide_eq_true_iff] at hcapital
      exact isPortable_of_visible (by omega) (by omega)
    · exact isPortable_of_visible (by omega) (by omega)
  · exact isPortable_of_visible (by omega) (by omega)

/-- A text that is a word of ASCII in lower case is text, and its characters are quoted as TOML has
them. Capital letters beyond ASCII can be among them. -/
theorem Bytes.isPortable_of_toLower {text : Bytes}
    (h : ∀ b ∈ text.toLower, 0x61 ≤ b.toNat ∧ b.toNat ≤ 0x7A) :
    text.isWellFormed = true ∧ ∀ c ∈ text.chars, isPortable c = true := by
  rw [toLower] at h
  split at h
  · next hascii =>
    have hletters : ∀ b ∈ text, 0x41 ≤ b.toNat ∧ b.toNat ≤ 0x7A := by
      intro b hb
      have hlower := h _ (List.mem_map_of_mem hb)
      split at hlower
      · next hcapital =>
        rw [Bool.and_eq_true, decide_eq_true_iff, decide_eq_true_iff, UInt8.le_iff_toNat_le,
          UInt8.le_iff_toNat_le] at hcapital
        exact ⟨hcapital.1, Nat.le_trans hcapital.2 (by decide)⟩
      · omega
    have hclean : IsClean text := .of_ascii fun b hb => by
      have hletter := hletters b hb
      omega
    refine ⟨hclean.wellFormed, ?_⟩
    obtain ⟨cs, rfl⟩ := exists_ofChars hclean.wellFormed
    rw [chars_ofChars]
    intro c hc
    have hrange := range_of_mem_ofChars (by decide) hletters hc
    exact Quoted.isPortable_of_visible (by omega) (by omega)
  · have hletters : ∀ c ∈ text.chars, 0x61 ≤ (Text.lowerChar c).toNat ∧
        (Text.lowerChar c).toNat ≤ 0x7A := fun c hc =>
      range_of_mem_ofChars (by decide) h (List.mem_map_of_mem hc)
    refine ⟨?_, fun c hc => Quoted.isPortable_of_lowerChar (hletters c hc)⟩
    rw [isWellFormed, List.all_eq_true]
    intro r hr
    cases r with
    | char c => rfl
    | stray b =>
      -- a stray byte becomes U+FFFD in lower case, which is no letter
      have hreplacement : ¬ (0x61 ≤ (Text.lowerChar Rune.replacement).toNat ∧
          (Text.lowerChar Rune.replacement).toNat ≤ 0x7A) := by decide +kernel
      exact absurd (hletters _ (List.mem_map_of_mem hr)) hreplacement

/-! ### Single settings -/

theorem Decimal.ofInt64_of_nonneg {n : Int64} (h : 0 ≤ n.toInt) :
    ofInt64 n = Bytes.ofChars (Nat.toDigits 10 n.toInt.toNat) := by
  obtain ⟨k, hk⟩ := Int.eq_ofNat_of_zero_le h
  rw [ofInt64, hk]
  show (Nat.toDigits 10 k).map Bytes.ascii = Bytes.ofChars (Nat.toDigits 10 k)
  have hdigits : ∀ d ∈ Nat.toDigits 10 k, d.isDigit = true := fun d hd =>
    Nat.isDigit_of_mem_toDigits (by decide) (by decide) hd
  generalize Nat.toDigits 10 k = digits at hdigits ⊢
  induction digits with
  | nil => rfl
  | cons d ds ih =>
    obtain ⟨hd, hds⟩ := List.forall_mem_cons.mp hdigits
    have hascii : d.toNat < 0x80 := by
      rw [Char.isDigit, Bool.and_eq_true, decide_eq_true_iff, decide_eq_true_iff,
        UInt32.le_iff_toNat_le] at hd
      exact Nat.lt_of_le_of_lt hd.2 (by decide)
    rw [List.map_cons, ih hds, Quoted.ofChars_ascii hascii]

namespace Setting

/-- Is the setting written? Sizes must not be negative. -/
def IsWritten (s : Settings) (setting : Setting) : Prop :=
  match setting.slot with
  | .text get _ => get s ≠ [] ∧ (get s).isWellFormed = true
  | .flag _ _ => True
  | .size get _ => 0 ≤ (get s).toInt

/-- Are its characters quoted as TOML has them? -/
def IsPortable (s : Settings) (setting : Setting) : Prop :=
  match setting.slot with
  | .text get _ => ∀ c ∈ (get s).chars, isPortable c = true
  | .flag _ _ | .size _ _ => True

/-- The value of a setting, character by character. -/
def valueText (s : Settings) (setting : Setting) : List Char :=
  match setting.slot with
  | .text get _ => '"' :: ((get s).chars.flatMap Quoted.spelling ++ ['"'])
  | .flag get _ => if get s then "true".toList else "false".toList
  | .size get _ => Nat.toDigits 10 (get s).toInt.toNat

/-- The value is that of the setting. -/
def HasValue (s : Settings) (setting : Setting) (v : Toml.Value) : Prop :=
  match setting.slot with
  | .text get _ => ∃ line, v = .string line (some (get s))
  | .flag get _ => v = .boolean (get s)
  | .size get _ => v = .integer (Decimal.ofInt64 (get s))

/-- The pair of a setting. -/
def written (s : Settings) (setting : Setting) : Toml.Written :=
  ⟨setting.title.chars, setting.valueText s, setting.HasValue s⟩

/-- Takes the setting over from other settings. -/
def copy (s t : Settings) (setting : Setting) : Settings :=
  match setting.slot with
  | .text get put => put (get s) t
  | .flag get put => put (get s) t
  | .size get put => put (get s) t

variable {s : Settings} {setting : Setting}

/-- The titles are keys that need no quotes. -/
theorem title_spec (h : setting ∈ all) :
    Bytes.ofChars setting.title.chars = setting.title ∧ Toml.IsPlainKey setting.title.chars := by
  have htitles : ∀ title ∈ all.map Setting.title, Bytes.ofChars title.chars = title ∧
      title.chars ≠ [] ∧ title.chars.all Toml.isKeyChar = true := by decide +kernel
  obtain ⟨htitle, hne, hchars⟩ := htitles setting.title (List.mem_map_of_mem h)
  exact ⟨htitle, hne, List.all_eq_true.mp hchars⟩

/-- A setting is found by its title. -/
theorem find?_title (h : setting ∈ all) :
    all.find? (·.title = setting.title) = some setting := by
  revert setting
  simp only [all, List.forall_mem_cons]
  exact ⟨rfl, rfl, rfl, rfl, rfl, rfl, rfl, rfl, List.forall_mem_nil _⟩

theorem written?_eq (h : setting.IsWritten s) :
    setting.written? s = some (Bytes.ofChars (setting.valueText s)) := by
  obtain ⟨key, title, slot⟩ := setting
  cases slot with
  | text get put =>
    obtain ⟨hne, hwellFormed⟩ := h
    obtain ⟨cs, hcs⟩ := Bytes.exists_ofChars hwellFormed
    have hchars : (get s).chars = cs := by rw [hcs, Bytes.chars_ofChars]
    show (if (get s).isEmpty then none else some (Quoted.encode (get s))) = some (Bytes.ofChars
      ('"' :: ((get s).chars.flatMap Quoted.spelling ++ ['"'])))
    rw [if_neg (by rwa [List.isEmpty_iff]), hchars, hcs, Quoted.encode_ofChars]
  | flag get put =>
    show some _ = some (Bytes.ofChars (if get s then "true".toList else "false".toList))
    cases get s <;> rfl
  | size get put => exact congrArg some (Decimal.ofInt64_of_nonneg h)

/-- The line of a setting, character by character. -/
theorem line_eq (hmem : setting ∈ all) (h : setting.IsWritten s) :
    setting.line s = Bytes.ofChars ((setting.written s).text ++ ['\n']) := by
  have htext : (setting.written s).text ++ ['\n'] = setting.title.chars ++ " = ".toList
      ++ setting.valueText s ++ "\n".toList := by
    rw [List.append_assoc setting.title.chars]
    rfl
  rw [line, written?_eq h, htext, Bytes.ofChars_append, Bytes.ofChars_append, Bytes.ofChars_append,
    (title_spec hmem).1]
  rfl

theorem isReadable_written (hmem : setting ∈ all) (h : setting.IsWritten s)
    (hportable : setting.IsPortable s) : (setting.written s).IsReadable := by
  refine ⟨(title_spec hmem).2, ?_⟩
  show Toml.IsValueText (setting.valueText s) (setting.HasValue s)
  obtain ⟨key, title, slot⟩ := setting
  cases slot with
  | text get put =>
    obtain ⟨hne, hwellFormed⟩ := h
    have hchars : Bytes.ofChars (get s).chars = get s := Bytes.cleaned_of_isWellFormed hwellFormed
    have hvalue := Toml.isValueText_string (fun hnil => hne (by rw [← hchars, hnil]; rfl)) hportable
    rw [hchars] at hvalue
    exact hvalue
  | flag get put => exact Toml.isValueText_boolean (get s)
  | size get put =>
    have hvalue := Toml.isValueText_integer (get s).toInt.toNat
    rw [← Decimal.ofInt64_of_nonneg h] at hvalue
    exact hvalue

theorem isScalar_of_hasValue {v : Toml.Value} (h : setting.HasValue s v) : v.IsScalar := by
  obtain ⟨key, title, slot⟩ := setting
  cases slot with
  | text get put =>
    obtain ⟨line, rfl⟩ := h
    trivial
  | flag get put =>
    obtain rfl : v = _ := h
    trivial
  | size get put =>
    obtain rfl : v = _ := h
    trivial

/-- The value of a setting is put back where it came from. -/
theorem putToml_of_hasValue {v : Toml.Value} (h : setting.HasValue s v) (t : Settings) :
    Settings.putToml setting.slot v t = .ok (setting.copy s t) := by
  obtain ⟨key, title, slot⟩ := setting
  cases slot with
  | text get put =>
    obtain ⟨line, rfl⟩ := h
    rfl
  | flag get put =>
    obtain rfl : v = _ := h
    rfl
  | size get put =>
    obtain rfl : v = _ := h
    rw [Settings.putToml, Decimal.readInt64?_ofInt64]
    rfl

theorem takeToml_of_isEntry (hmem : setting ∈ all) {e : Toml.Entry}
    (h : (setting.written s).IsEntry e) (t : Settings) :
    Settings.takeToml t e = .ok (setting.copy s t) := by
  obtain ⟨v, line, rfl, hv⟩ := h
  have hname : Bytes.ofChars (setting.written s).key = setting.title := (title_spec hmem).1
  simp only [Settings.takeToml, hname, List.headD_cons, find?_title hmem, putToml_of_hasValue hv]
  rfl

/-! ### All settings -/

/-- The lines of some settings. -/
theorem flatMap_line {settings : List Setting} (hall : ∀ σ ∈ settings, σ ∈ all)
    (h : ∀ σ ∈ settings, σ.IsWritten s) : settings.flatMap (line s)
      = Bytes.ofChars (Toml.documentText (settings.map (written s))) := by
  rw [Toml.documentText, Bytes.ofChars, List.flatMap_assoc, List.flatMap_map]
  exact List.flatMap_congr fun σ hσ => line_eq (hall σ hσ) (h σ hσ)

theorem isReadable_map {settings : List Setting} (hall : ∀ σ ∈ settings, σ ∈ all)
    (h : ∀ σ ∈ settings, σ.IsWritten s ∧ σ.IsPortable s) :
    ∀ w ∈ settings.map (written s), w.IsReadable := by
  rintro w hw
  obtain ⟨σ, hσ, rfl⟩ := List.mem_map.mp hw
  exact isReadable_written (hall σ hσ) (h σ hσ).1 (h σ hσ).2

/-- Entries of some settings put these settings over others. -/
theorem foldlM_takeToml {settings : List Setting} (hall : ∀ σ ∈ settings, σ ∈ all)
    {entries : List Toml.Entry}
    (h : List.Forall₂ (fun σ e => (written s σ).IsEntry e) settings entries) (t : Settings) :
    entries.foldlM Settings.takeToml t = .ok (settings.foldl (copy s) t) := by
  induction h generalizing t with
  | nil => rfl
  | cons hentry _ ih =>
    obtain ⟨hσ, hrest⟩ := List.forall_mem_cons.mp hall
    rw [List.foldlM_cons, takeToml_of_isEntry hσ hentry]
    exact ih hrest _

/-- What is read from the lines of some settings: these settings, over the defaults. -/
theorem ofToml_flatMap_line {settings : List Setting} (hne : settings ≠ [])
    (hsub : settings.Sublist all) (h : ∀ σ ∈ settings, σ.IsWritten s ∧ σ.IsPortable s) :
    Settings.ofToml (settings.flatMap (line s)) = .ok (settings.foldl (copy s) .defaults) := by
  have hall : ∀ σ ∈ settings, σ ∈ all := fun σ hσ => hsub.subset hσ
  have hreadable := isReadable_map hall h
  have hscalar : ∀ w ∈ settings.map (written s), ∀ v, w.kind v → v.IsScalar := by
    rintro w hw v hv
    obtain ⟨σ, -, rfl⟩ := List.mem_map.mp hw
    exact isScalar_of_hasValue hv
  have hkeys : ((settings.map (written s)).map fun w => Bytes.ofChars w.key).Nodup := by
    have hnodup : (all.map fun σ => Bytes.ofChars σ.title.chars).Nodup := by decide +kernel
    rw [List.map_map]
    exact hnodup.sublist (hsub.map _)
  obtain ⟨σ, rest, rfl⟩ := List.exists_cons_of_ne_nil hne
  obtain ⟨entries, htable, hentries⟩ := Toml.table_documentText hreadable hscalar hkeys
  rw [← List.map_cons] at hentries
  have hcopies := foldlM_takeToml hall (List.forall₂_map_left_iff.mp hentries) .defaults
  rw [flatMap_line hall fun σ hσ => (h σ hσ).1, Settings.ofToml, List.map_cons, htable]
  exact hcopies

/-- The first settings, up to that of the history file. -/
def early : List Setting := all.take 7

/-- The setting of the history file, which is written last. -/
def history : Setting :=
  ⟨"historyFile", "HistoryFile", .text Settings.historyFile fun x s => { s with historyFile := x }⟩

theorem all_eq : all = early ++ [history] := rfl

theorem early_ne_nil : early ≠ [] := List.cons_ne_nil _ _

theorem early_sublist : early.Sublist all := List.take_sublist 7 all

theorem history_mem : history ∈ all := by
  rw [all_eq]
  exact List.mem_append_right early List.mem_cons_self

/-- The line of the history file, up to its quoted text. -/
theorem text_history (s : Settings) : (history.written s).text ++ ['\n']
    = history.title.chars ++ ' ' :: '=' :: ' ' :: '"' ::
      (s.historyFile.chars.flatMap Quoted.spelling ++ ['"', '\n']) := by
  show (history.title.chars ++ ' ' :: '=' :: ' ' :: '"' ::
    (s.historyFile.chars.flatMap Quoted.spelling ++ ['"'])) ++ ['\n'] = _
  simp

theorem foldl_copy_early (s : Settings) :
    early.foldl (copy s) .defaults = { s with historyFile := [] } := by
  simp only [early, all, List.take, List.foldl, copy]
  rfl

theorem foldl_copy_all (s : Settings) : all.foldl (copy s) .defaults = s := by
  rw [all_eq, List.foldl_append, foldl_copy_early]
  rfl

end Setting

/-! ### Legal settings -/

namespace Settings

variable {s : Settings}

/-- What is known of legal settings. -/
theorem legal_of_validate (h : s.validate = .ok ()) :
    Mode.ofName? s.mode ≠ none ∧ Color.ofName? s.color ≠ none ∧ LogLevel.ofName? s.logLevel ≠ none ∧
      0 ≤ s.cacheSize.toInt := by
  rw [validate] at h
  simp only [Option.isNone_iff_eq_none] at h
  split at h
  · cases h
  split at h
  · cases h
  split at h
  · cases h
  split at h
  · cases h
  next hmode hcolor hlevel hsize =>
  refine ⟨hmode, hcolor, hlevel, ?_⟩
  rw [Int64.lt_iff_toInt_lt] at hsize
  exact Int.not_lt.mp hsize

/-- A name of a mode or of a choice of colours. -/
def IsWord (text : Bytes) : Prop :=
  (text ≠ [] ∧ text.isWellFormed = true) ∧ ∀ c ∈ text.chars, isPortable c = true

theorem isWord_mode (h : Mode.ofName? s.mode ≠ none) : IsWord s.mode := by
  obtain ⟨m, hm⟩ := Option.ne_none_iff_exists'.mp h
  rw [Mode.ofName?] at hm
  have hname : m.name = s.mode := by simpa using List.find?_some hm
  rw [← hname]
  cases m <;> exact ⟨by decide +kernel, List.all_eq_true.mp (by decide +kernel)⟩

theorem isWord_color (h : Color.ofName? s.color ≠ none) : IsWord s.color := by
  obtain ⟨m, hm⟩ := Option.ne_none_iff_exists'.mp h
  rw [Color.ofName?] at hm
  have hname : m.name = s.color := by simpa using List.find?_some hm
  rw [← hname]
  cases m <;> exact ⟨by decide +kernel, List.all_eq_true.mp (by decide +kernel)⟩

theorem isWord_logLevel (h : LogLevel.ofName? s.logLevel ≠ none) : IsWord s.logLevel := by
  obtain ⟨level, hlevel⟩ := Option.ne_none_iff_exists'.mp h
  obtain ⟨before, after, hnames, -⟩ := List.lookup_eq_some_iff.mp hlevel
  have hmem : s.logLevel.toLower ∈ LogLevel.names.map Prod.fst := by
    rw [hnames]
    simp
  have hletters : ∀ name ∈ LogLevel.names.map Prod.fst, name ≠ [] ∧
      ∀ b ∈ name, 0x61 ≤ b.toNat ∧ b.toNat ≤ 0x7A := by decide +kernel
  obtain ⟨hne, hrange⟩ := hletters _ hmem
  obtain ⟨hwellFormed, hportable⟩ := Bytes.isPortable_of_toLower hrange
  refine ⟨⟨?_, hwellFormed⟩, hportable⟩
  intro hnil
  rw [hnil] at hne
  exact hne rfl

/-- Legal settings are written, and can be read back but for the history file. -/
theorem early_of_validate (h : s.validate = .ok ()) :
    ∀ σ ∈ Setting.early, σ.IsWritten s ∧ σ.IsPortable s := by
  obtain ⟨hmode, hcolor, hlevel, hsize⟩ := legal_of_validate h
  simp only [Setting.early, Setting.all, List.take, List.forall_mem_cons]
  refine ⟨isWord_mode hmode, ⟨trivial, trivial⟩, ⟨trivial, trivial⟩, ⟨trivial, trivial⟩,
    isWord_color hcolor, isWord_logLevel hlevel, ⟨hsize, trivial⟩, List.forall_mem_nil _⟩

/-! ### Files -/

theorem toToml_eq (s : Settings) :
    s.toToml = Setting.early.flatMap (Setting.line s) ++ Setting.history.line s := by
  rw [toToml, Setting.all_eq, List.flatMap_append, List.flatMap_singleton]

/-- Legal settings are read back, unless the history file has a foreign character. An empty history
file is not written, and is the default. -/
theorem ofToml_toToml (hvalid : s.validate = .ok ()) (hhistory : s.historyFile.isWellFormed = true)
    (hportable : ∀ c ∈ s.historyFile.chars, isPortable c = true) : ofToml s.toToml = .ok s := by
  have hearly := early_of_validate hvalid
  by_cases hempty : s.historyFile = []
  · have hline : Setting.history.line s = [] := by
      have hnone : Setting.history.written? s = none := if_pos (List.isEmpty_iff.mpr hempty)
      rw [Setting.line, hnone]
    have hread := Setting.ofToml_flatMap_line Setting.early_ne_nil Setting.early_sublist hearly
    rw [toToml_eq, hline, List.append_nil, hread, Setting.foldl_copy_early, ← hempty]
  · have hall : ∀ σ ∈ Setting.all, σ.IsWritten s ∧ σ.IsPortable s := by
      rw [Setting.all_eq, List.forall_mem_append, List.forall_mem_singleton]
      exact ⟨hearly, ⟨hempty, hhistory⟩, hportable⟩
    have hne : Setting.all ≠ [] := List.ne_nil_of_mem Setting.history_mem
    have hread := Setting.ofToml_flatMap_line hne (List.Sublist.refl _) hall
    rw [toToml, hread, Setting.foldl_copy_all]

/-- With a foreign character in the history file, the text is no TOML. -/
theorem ofToml_toToml_error (hvalid : s.validate = .ok ())
    (hhistory : s.historyFile.isWellFormed = true)
    (hforeign : ∃ c ∈ s.historyFile.chars, isPortable c = false) :
    ∃ line, ofToml s.toToml = .error ⟨line, none, "invalid TOML syntax"⟩ := by
  have hearly := early_of_validate hvalid
  have hwritten : Setting.history.IsWritten s := by
    refine ⟨fun hnil => ?_, hhistory⟩
    have hnil : s.historyFile = [] := hnil
    obtain ⟨c, hc, -⟩ := hforeign
    rw [hnil] at hc
    cases hc
  have hline := Setting.line_eq Setting.history_mem hwritten
  rw [Setting.text_history] at hline
  have hvalue : Toml.Rule.Refuses Toml.value
      ('"' :: (s.historyFile.chars.flatMap Quoted.spelling ++ ['"', '\n'])) :=
    Toml.refuses_value_string hforeign
  have hstops := Toml.stopsLines_of_refuses_value (Setting.title_spec Setting.history_mem).2 rfl
    hvalue
  have hall : ∀ σ ∈ Setting.early, σ ∈ Setting.all := fun σ hσ => Setting.early_sublist.subset hσ
  have hreadable := Setting.isReadable_map hall hearly
  obtain ⟨σ, rest, hcons⟩ := List.exists_cons_of_ne_nil Setting.early_ne_nil
  rw [hcons, List.map_cons] at hreadable
  obtain ⟨line, htable⟩ := Toml.table_error hreadable hstops (by simp)
  refine ⟨line, ?_⟩
  rw [ofToml, toToml_eq, Setting.flatMap_line hall fun σ hσ => (hearly σ hσ).1, hline,
    ← Bytes.ofChars_append, hcons, List.map_cons, htable]
  rfl

section Load

variable {t : FileTree} {path contents : Bytes}

/-- A TOML file is read, and then its values are looked at. -/
theorem load_eq (hformat : format? path = some .toml)
    (hfile : t.look path = .ok (.file contents)) : load t path = (do
      let s ← (ofToml contents).mapError (.toml path)
      (s.validate).mapError (.illegal path)
      return s) := by
  rw [load, hfile]
  dsimp only
  rw [hformat]
  rfl

theorem load_of_ok (hformat : format? path = some .toml)
    (hfile : t.look path = .ok (.file contents)) (hread : ofToml contents = .ok s)
    (hvalid : s.validate = .ok ()) : load t path = .ok s := by
  rw [load_eq hformat hfile, hread]
  show ((s.validate.mapError (SettingsTrouble.illegal path)).bind fun _ => .ok s) = .ok s
  rw [hvalid]
  rfl

theorem load_of_error {fault : Toml.Trouble} (hformat : format? path = some .toml)
    (hfile : t.look path = .ok (.file contents)) (hread : ofToml contents = .error fault) :
    load t path = .error (.toml path fault) := by
  rw [load_eq hformat hfile, hread]
  rfl

/-- **Settings written as TOML are read back exactly if the history file is portable.** Take legal
settings, with any history file that is text, and a TOML file with what is written for them. Loading
the file gives these settings if no character of the history file is a control character of ASCII
without a short escape that TOML shares. Otherwise the file is refused, as its text is no TOML. -/
theorem load_toToml_iff (hvalid : s.validate = .ok ())
    (hhistory : s.historyFile.isWellFormed = true) (hformat : format? path = some .toml)
    (hfile : t.look path = .ok (.file s.toToml)) :
    (load t path = .ok s ↔ ∀ c ∈ s.historyFile.chars, isPortable c = true) ∧
      ((∃ c ∈ s.historyFile.chars, isPortable c = false) → ∃ line,
        load t path = .error (.toml path ⟨line, none, "invalid TOML syntax"⟩)) := by
  have herror : (∃ c ∈ s.historyFile.chars, isPortable c = false) → ∃ line,
      load t path = .error (.toml path ⟨line, none, "invalid TOML syntax"⟩) := by
    intro hforeign
    obtain ⟨line, hread⟩ := ofToml_toToml_error hvalid hhistory hforeign
    exact ⟨line, load_of_error hformat hfile hread⟩
  refine ⟨⟨fun hload => ?_, fun hportable => ?_⟩, herror⟩
  · by_contra hforeign
    obtain ⟨line, hline⟩ := herror (by simpa using hforeign)
    rw [hline] at hload
    cases hload
  · exact load_of_ok hformat hfile (ofToml_toToml hvalid hhistory hportable) hvalid

/-- A history file whose name needs escapes, and one whose name is a bell. -/
theorem load_toToml_iff_bell :
    let path : Bytes := "dump.toml"
    let saved (s : Settings) : FileTree :=
      ⟨"/work", "/home", NameMap.ofList [("/work/dump.toml", s.toToml)], []⟩
    let escaped : Settings := { defaults with historyFile := "é\t\"\\😀" }
    let bell : Settings := { defaults with historyFile := "\x07" }
    load (saved escaped) path = .ok escaped ∧ ∃ line,
      load (saved bell) path = .error (.toml path ⟨line, none, "invalid TOML syntax"⟩) := by
  intro path saved escaped bell
  have hformat : format? path = some .toml := by decide +kernel
  obtain ⟨hescaped, -⟩ := load_toToml_iff (s := escaped) (t := saved escaped) (by decide +kernel)
    (by decide +kernel) hformat (by decide +kernel)
  obtain ⟨-, hbell⟩ := load_toToml_iff (s := bell) (t := saved bell) (by decide +kernel)
    (by decide +kernel) hformat (by decide +kernel)
  refine ⟨hescaped.mpr (List.all_eq_true.mp (by decide +kernel)), hbell ⟨'\x07', ?_⟩⟩
  exact ⟨by decide +kernel, by decide +kernel⟩

end Load

end Settings

end Polish
