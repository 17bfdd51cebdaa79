import Polish.Log
import Polish.Text.Quoted
import Polish.Workbench

/-!
# Settings

The settings that outlive a run: how programs are run and shown, and how the program talks to its
user. A setting has a name in each of the two kinds of settings files.

* `Settings`, `Settings.defaults`
* `Settings.validate`: are all values legal?
* `Setting`: one of the settings, with its names.
* `Settings.toToml`: the settings as a text that can be read again.
-/

namespace Polish

/-- All settings, as a user has written them. -/
structure Settings where
  mode : Bytes
  showInfix : Bool
  showCode : Bool
  pretty : Bool
  color : Bytes
  logLevel : Bytes
  cacheSize : Int64
  historyFile : Bytes
deriving DecidableEq, Repr

/-- When diagnostics are coloured. -/
inductive Color where
  /-- Only on a terminal. -/
  | auto
  | always
  | never
deriving DecidableEq, Repr

namespace Color

/-- The name of a choice. -/
def name : Color → Bytes
  | auto => "auto"
  | always => "always"
  | never => "never"

/-- The choice with a name. -/
def ofName? (text : Bytes) : Option Color := [auto, always, never].find? (·.name == text)

end Color

/-- An illegal value of a setting. -/
inductive SettingsFault where
  | mode (text : Bytes)
  | color (text : Bytes)
  | logLevel (text : Bytes)
  | cacheSize (n : Int64)
deriving DecidableEq, Repr

namespace SettingsFault

/-- What is wrong. -/
def message : SettingsFault → Bytes
  | mode text => "invalid mode " ++ Quoted.encode text ++ " (want interpret, compile or both)"
  | color text => "invalid color " ++ Quoted.encode text ++ " (want auto, always or never)"
  | logLevel text =>
    "invalid log level " ++ Quoted.encode text ++ ": log15: unknown level: " ++ text.toLower
  | cacheSize n => "cacheSize must not be negative, got " ++ Decimal.ofInt64 n

end SettingsFault

namespace Settings

/-- The settings of a user without a settings file. -/
def defaults : Settings := ⟨"both", true, true, false, "auto", "warn", 64, []⟩

/-- Refuses the first illegal value. -/
def validate (s : Settings) : Except SettingsFault Unit :=
  if (Mode.ofName? s.mode).isNone then .error (.mode s.mode)
  else if (Color.ofName? s.color).isNone then .error (.color s.color)
  else if (LogLevel.ofName? s.logLevel).isNone then .error (.logLevel s.logLevel)
  else if s.cacheSize < 0 then .error (.cacheSize s.cacheSize)
  else .ok ()

end Settings

/-! ### Single settings -/

/-- What a setting holds, with the ways to look at it and to change it. -/
inductive Slot where
  | text (get : Settings → Bytes) (put : Bytes → Settings → Settings)
  | flag (get : Settings → Bool) (put : Bool → Settings → Settings)
  | size (get : Settings → Int64) (put : Int64 → Settings → Settings)

/-- A setting: its name in YAML files, its name in TOML files, and what it holds. -/
structure Setting where
  key : Bytes
  title : Bytes
  slot : Slot

namespace Setting

/-- All settings, in the order in which they are written. -/
def all : List Setting :=
  [⟨"mode", "Mode", .text Settings.mode fun x s => { s with mode := x }⟩,
    ⟨"showInfix", "ShowInfix", .flag Settings.showInfix fun x s => { s with showInfix := x }⟩,
    ⟨"showCode", "ShowCode", .flag Settings.showCode fun x s => { s with showCode := x }⟩,
    ⟨"pretty", "Pretty", .flag Settings.pretty fun x s => { s with pretty := x }⟩,
    ⟨"color", "Color", .text Settings.color fun x s => { s with color := x }⟩,
    ⟨"logLevel", "LogLevel", .text Settings.logLevel fun x s => { s with logLevel := x }⟩,
    ⟨"cacheSize", "CacheSize", .size Settings.cacheSize fun x s => { s with cacheSize := x }⟩,
    ⟨"historyFile", "HistoryFile",
      .text Settings.historyFile fun x s => { s with historyFile := x }⟩]

/-- The value of a setting as it is written; an empty text is not. -/
def written? (setting : Setting) (s : Settings) : Option Bytes :=
  match setting.slot with
  | .text get _ => if (get s).isEmpty then none else some (Quoted.encode (get s))
  | .flag get _ => some (if get s then "true" else "false")
  | .size get _ => some (Decimal.ofInt64 (get s))

/-- The line of a setting. -/
def line (s : Settings) (setting : Setting) : Bytes :=
  match setting.written? s with
  | none => []
  | some value => setting.title ++ " = " ++ value ++ "\n"

end Setting

/-- The settings, one a line, each with its name. -/
def Settings.toToml (s : Settings) : Bytes := Setting.all.flatMap (Setting.line s)

end Polish
