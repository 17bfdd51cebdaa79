import Polish.Double.Reader
import Polish.FileTree
import Polish.Settings
import Polish.Text.LowerCase
import Polish.Timestamp
import Polish.Toml.Table
import Polish.Yaml.Decode

/-!
# Reading settings

Settings are read from a YAML or a TOML file over the defaults; the end of the file's name tells
which. Without a file of the user's choice, the first of a few known places counts.

* `SettingsTrouble`: why there are no settings.
* `Settings.ofYaml`, `Settings.ofToml`: the settings in a text.
* `Settings.load`: the settings in a file.
* `Settings.discover`: the settings in the first known place.
-/

namespace Polish

/-- Why settings cannot be had. -/
inductive SettingsTrouble where
  /-- There is no such file. -/
  | cannotOpen (reason : Bytes)
  /-- The file cannot be read. -/
  | cannotRead (path reason : Bytes)
  /-- The file is neither YAML nor TOML, by its name. -/
  | unsupported (extension : Bytes)
  | yaml (path : Bytes) (t : Yaml.Trouble)
  | toml (path : Bytes) (t : Toml.Trouble)
  /-- A value in the file is illegal. -/
  | illegal (path : Bytes) (f : SettingsFault)
deriving DecidableEq, Repr

namespace SettingsTrouble

/-- What is wrong. -/
def message : SettingsTrouble → Bytes
  | cannotOpen reason => "config: " ++ reason
  | cannotRead path reason => "config: parse " ++ path ++ ": " ++ reason
  | unsupported extension => "config: unsupported file type " ++ Quoted.encode extension
  | yaml path t => "config: parse " ++ path ++ ": " ++ t.message
  | toml path t => path ++ ", " ++ t.message
  | illegal path f => path ++ ": " ++ f.message

end SettingsTrouble

namespace Settings

/-- The name that messages give to the settings as a whole. -/
def typeName : Bytes := "config.Config"

/-! ### YAML -/

/-- A setting as a field of a YAML record. -/
def yamlField (setting : Setting) : Yaml.Field Settings :=
  match setting.slot with
  | .text _ put => .of setting.key Yaml.text? put
  | .flag _ put => .of setting.key Yaml.flag? put
  | .size _ put => .of setting.key (Yaml.int64? "int") put

/-- The settings in a YAML text; one without a document changes nothing. -/
def ofYaml (text : Bytes) : Except Yaml.Trouble Settings :=
  match Yaml.load (Yaml.record typeName (Setting.all.map yamlField) defaults) text with
  | .ok s => .ok (s.getD defaults)
  | .error .empty => .ok defaults
  | .error t => .error t

/-! ### TOML -/

/-- A value of a kind that a setting cannot hold, and what would have to be there to hold it. -/
def wrongKind (kind : Bytes) (need : Option Bytes) (wanted : Bytes) : Bytes :=
  let need : Bytes := match need with
    | none => []
    | some n => " (need " ++ n ++ ")"
  "cannot unmarshal TOML " ++ kind ++ " into " ++ wanted ++ need

/-- What is wrong with a number with a fraction or an exponent, if it is too large to be held. -/
def floatProblem? (digits : Bytes) : Option Bytes :=
  match Double.read? digits with
  | some _ => none
  | none => some ("strconv.ParseFloat: parsing " ++ Quoted.encode digits ++ ": value out of range")

/-- What is wrong with a time: a date alone, a time of day alone, or both, with or without a zone. -/
def timeProblem? (text : Bytes) : Option Bytes :=
  let date := Layout.date false
  let clock := Layout.clock false
  let both : Layout := date ++ .mark 'T' :: clock
  let outcome := if !text.contains 0x3A then date.parse text
    else if !text.contains 0x2D then clock.parse text
    else match Layout.parse (both ++ [.zone]) text with
      | .ok t => .ok t
      | .error _ => both.parse text
  match outcome with
  | .ok _ => none
  | .error f => some (f.message text)

/-- Why a setting of the wanted kind cannot have a value. -/
def mismatch (wanted : Bytes) : Toml.Value → Bytes
  | .string _ _ => wrongKind "string" none wanted
  | .integer _ => wrongKind "integer" none wanted
  | .float digits => (floatProblem? digits).getD (wrongKind "float" none wanted)
  | .boolean _ => wrongKind "boolean" none wanted
  | .datetime text => (timeProblem? text).getD (wrongKind "datetime" none wanted)
  | .array _ => wrongKind "array" (some "slice") wanted
  | .table _ _ => wrongKind "table" (some "struct or map") wanted

/-- What messages call the kind of values that a setting holds. -/
def kindName : Slot → Bytes
  | .text _ _ => "string"
  | .flag _ _ => "bool"
  | .size _ _ => "int"

/-- Changes a setting to a value. -/
def putToml (slot : Slot) (value : Toml.Value) (s : Settings) : Except Bytes Settings :=
  match slot, value with
  | .text _ put, .string _ (some text) => .ok (put text s)
  | .flag _ put, .boolean b => .ok (put b s)
  | .size _ put, .integer digits =>
    match Decimal.readInt64? digits with
    | some n => .ok (put n s)
    | none => .error ("value " ++ digits ++ " is out of range for int")
  | slot, value => .error (mismatch (kindName slot) value)

/-- Takes an entry of a TOML table. No setting holds a table. -/
def takeToml (s : Settings) (e : Toml.Entry) : Except Toml.Trouble Settings :=
  let name := e.path.headD []
  match Setting.all.find? (·.title = name) with
  | none => .error ⟨e.line, none, "field '" ++ name ++ "' is not defined in " ++ typeName⟩
  | some setting =>
    let field := some (typeName ++ "." ++ name)
    match e.role with
    | .value v => (putToml setting.slot v s).mapError (⟨e.line, field, ·⟩)
    | .table _ =>
      .error ⟨e.line, none, wrongKind "table" (some "struct or map") (kindName setting.slot)⟩
    | .tables =>
      .error ⟨e.line, field, wrongKind "array table" (some "slice") (kindName setting.slot)⟩

/-- The settings in a TOML text. -/
def ofToml (text : Bytes) : Except Toml.Trouble Settings := do
  (← Toml.table text).foldlM takeToml defaults

/-! ### Files -/

/-- The two kinds of settings files. -/
inductive Format where
  | yaml
  | toml
deriving DecidableEq, Repr

/-- The kind of a file, by the end of its name. -/
def format? (path : Bytes) : Option Format :=
  let e := (Path.extension path).toLower
  if e = ".yaml" || e = ".yml" then some .yaml
  else if e = ".toml" then some .toml
  else none

/-- The settings in the contents of a file. -/
def parse (path : Bytes) (format : Format) (contents : Bytes) : Except SettingsTrouble Settings :=
  match format with
  | .yaml => (ofYaml contents).mapError (.yaml path)
  | .toml => (ofToml contents).mapError (.toml path)

/-- The settings in a file, with legal values. -/
def load (t : FileTree) (path : Bytes) : Except SettingsTrouble Settings :=
  match t.look path with
  | .error f => .error (.cannotOpen (f.message "open" path))
  | .ok found =>
    match format? path, found with
    | none, _ => .error (.unsupported (Path.extension path))
    | some .yaml, .folder =>
      .error (.cannotRead path ("yaml: input error: " ++ FileFault.isFolder.message "read" path))
    | some .toml, .folder => .error (.cannotRead path (FileFault.isFolder.message "read" path))
    | some format, .file contents => do
      let s ← parse path format contents
      (s.validate).mapError (.illegal path)
      return s

/-- The places where settings are looked for, in order. -/
def places (t : FileTree) : List Bytes :=
  ([".perp.yaml", ".perp.yml", ".perp.toml"] : List Bytes).map (Path.join t.work)
    ++ (["config.yaml", "config.toml"] : List Bytes).map fun name =>
      Path.join t.home (".perp/" ++ name)

/-- The settings in the first place that has any, and that place; the defaults if there is none. -/
def discover (t : FileTree) : Bytes × Except SettingsTrouble Settings :=
  match (places t).find? fun path => (t.look path).isOk with
  | some path => (path, load t path)
  | none => ([], .ok defaults)

end Settings

end Polish
