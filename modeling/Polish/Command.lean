import Polish.Flags

/-!
# Commands

The program does one thing at a time, told by a command. Commands and their flags are described once;
the help pages are made from these descriptions.

* `Command`: the commands.
* `Command.flags`, `Command.summary`, `Command.arguments`: how they are described.
* `Help.program`, `Command.page`: the help pages.
-/

namespace Polish

/-! ### Flags -/

namespace Flag

/-- A flag with a value. -/
def valued (name usage : Bytes) : Flag := ⟨[name], false, usage, []⟩

/-- A switch. -/
def toggle (name usage : Bytes) : Flag := ⟨[name], true, usage, []⟩

/-- The settings file. -/
def config : Flag := valued "config" "YAML or TOML configuration file"

/-- Diagnostics as text. -/
def pretty : Flag := toggle "pretty" "print diagnostics for humans instead of as JSON"

/-- When diagnostics are coloured. -/
def color : Flag := valued "color" "colorize diagnostics: auto, always or never"

/-- How much is logged. -/
def logLevel : Flag := valued "log-level" "log verbosity: crit, error, warn, info or debug"

/-- The help page. -/
def help : Flag := ⟨["help", "h"], true, "show help", []⟩

/-- How a program is run. -/
def mode : Flag := valued "mode" "execution path: interpret, compile or both"

/-- Is a program shown in infix notation? -/
def showInfix : Flag :=
  toggle "show-infix" "display the program in infix notation before running it"

/-- Is the code of a program shown? -/
def showCode : Flag := toggle "show-code" "display the compiled code before the machine runs it"

/-- The file for the events of a run. -/
def trace : Flag := valued "trace" "write execution events as JSON lines to this file"

/-- The file for a listing. -/
def output : Flag := valued "o" "write the listing to this file instead of stdout"

/-- What is shown of a program. -/
def stage : Flag :=
  ⟨["stage"], false, "pipeline stage to emit: tokens, ast, infix or code", "infix"⟩

/-- Is a summary shown as text? -/
def text : Flag := toggle "text" "print the summary as text instead of JSON"

/-- Is a list shown instead of a page? -/
def index : Flag :=
  toggle "index" "list the instruction set (machine) or operator table (operators)"

/-- The flags that stand before a command. -/
def global : List Flag := [config, pretty, color, logLevel, help]

/-- The flag as help pages show it. -/
def label (f : Flag) : Bytes :=
  let dashed := fun (name : Bytes) => (if name.length = 1 then "-" else "--") ++ name
  Bytes.join ", " (f.names.map dashed) ++ (if f.switch then "" else " value")

/-- What the flag does, as help pages tell it. -/
def note (f : Flag) : Bytes :=
  if f.default.isEmpty then f.usage
  else f.usage ++ " (default: \"" ++ f.default ++ "\")"

end Flag

/-! ### Commands -/

/-- What the program can be told to do. -/
inductive Command where
  | run
  | check
  | format
  | compile
  | exec
  | emit
  | verify
  | repl
  | trace
  | help
  | dumpSettings
deriving DecidableEq, Repr

namespace Command

/-- All commands, in the order in which they are shown. -/
def all : List Command :=
  [run, check, format, compile, exec, emit, verify, repl, trace, help, dumpSettings]

/-- The word for a command. -/
def name : Command → Bytes
  | run => "run"
  | check => "check"
  | format => "fmt"
  | compile => "compile"
  | exec => "exec"
  | emit => "emit"
  | verify => "verify"
  | repl => "repl"
  | trace => "trace"
  | help => "help"
  | dumpSettings => "dumpconfig"

/-- The command with a name. -/
def ofName? (text : Bytes) : Option Command := all.find? (·.name == text)

/-- What a command does. -/
def summary : Command → Bytes
  | run => "Run a program on the interpreter, the machine or both"
  | check => "Parse and validate a program without running it"
  | format => "Print a program in infix notation"
  | compile => "Compile a program and write its code listing"
  | exec => "Run a code listing on the machine"
  | emit => "Print one pipeline stage of a program"
  | verify => "Run both execution paths and compare their results"
  | repl => "Start an interactive session"
  | trace => "Summarize a JSON lines trace written by run --trace"
  | help => "Show the language reference"
  | dumpSettings => "Show configuration values"

/-- What follows a command; nothing if it does not care. -/
def arguments : Command → Bytes
  | run | check | format | compile | emit | verify => "<file>"
  | exec => "<listing>"
  | trace => "<file.jsonl>"
  | help => "[topic]"
  | repl | dumpSettings => []

/-- The flags of a command, without the one for its help page. -/
def ownFlags : Command → List Flag
  | run => [.mode, .showInfix, .showCode, .trace]
  | compile => [.output]
  | emit => [.stage]
  | trace => [.text]
  | help => [.index]
  | check | format | exec | verify | repl | dumpSettings => []

/-- The flags of a command. -/
def flags (c : Command) : List Flag := c.ownFlags ++ [.help]

/-- More about a command. -/
def description : Command → Bytes
  | dumpSettings => "The dumpconfig command shows the effective configuration in TOML."
  | _ => []

end Command

/-! ### Help pages -/

namespace Help

/-- The name of the program. -/
def programName : Bytes := "perp"

/-- What the program does. -/
def programSummary : Bytes := "interpret and compile Perp prefix-notation programs"

/-- Lines of two columns. The second starts two blanks after the widest entry of the first. -/
def columns (indent : Nat) (rows : List (Bytes × Bytes)) : Bytes :=
  let width := (rows.map fun r => r.1.length).foldl max 0 + 2
  let line := fun (r : Bytes × Bytes) => Bytes.spaces indent ++ r.1.padRight width ++ r.2 ++ "\n"
  (rows.map line).flatten

/-- A headed part of a page. -/
def part (title body : Bytes) : Bytes := title ++ ":\n" ++ body

/-- An indented line. -/
def line (text : Bytes) : Bytes := "   " ++ text ++ "\n"

/-- The lines of flags. -/
def flagLines (flags : List Flag) : Bytes := columns 3 (flags.map fun f => (f.label, f.note))

/-- The help page of the program. -/
def program : Bytes :=
  Bytes.join "\n"
    [part "NAME" (line (programName ++ " - " ++ programSummary)),
      part "USAGE"
        (line (programName ++ " [global options] command [command options] [arguments...]")),
      part "COMMANDS" (columns 5 (Command.all.map fun c => (c.name, c.summary))),
      part "GLOBAL OPTIONS" (flagLines Flag.global)]

end Help

namespace Command

/-- How a command is written. -/
def usage (c : Command) : Bytes :=
  let options : Bytes := if c.ownFlags.isEmpty then [] else " [command options]"
  let arguments : Bytes := if c.arguments.isEmpty then "[arguments...]" else c.arguments
  Help.programName ++ " " ++ c.name ++ options ++ " " ++ arguments

/-- The help page of a command. -/
def page (c : Command) : Bytes :=
  let name := Help.part "NAME" (Help.line (Help.programName ++ " " ++ c.name ++ " - " ++ c.summary))
  let usage := Help.part "USAGE" (Help.line c.usage)
  let description :=
    if c.description.isEmpty then [] else [Help.part "DESCRIPTION" (Help.line c.description)]
  let options :=
    if c.ownFlags.isEmpty then [] else [Help.part "OPTIONS" (Help.flagLines c.ownFlags ++ "   \n")]
  Bytes.join "\n" ([name, usage] ++ description ++ options)

end Command

end Polish
