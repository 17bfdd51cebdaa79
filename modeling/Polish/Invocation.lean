import Polish.Command
import Polish.Diagnostic.Render
import Polish.ExitStatus
import Polish.Manual
import Polish.Session
import Polish.Session.History
import Polish.Settings.Load
import Polish.Trace
import Polish.Trace.Summary
import Polish.Tree.Dump
import Polish.Workbench

/-!
# Invocations

An invocation is one run of the program from its command line. It sees the words of the command line,
standard input and the files, and it ends with a status, what it wrote on its two outputs, and the
files as it leaves them.

* `Surroundings`: what an invocation sees besides its words.
* `Ending`: what it leaves behind.
* `Setup`: the settings in force, and what follows from them.
* `Command.obey`: what each command does.
* `Invocation.run`: a whole invocation.
-/

namespace Polish

/-- What an invocation sees besides the words of its command line. -/
structure Surroundings where
  /-- Standard input, or why it cannot be read. -/
  stdin : Except Bytes Bytes
  /-- Why every write to standard output fails, if it does. -/
  outputFault : Option Bytes
  tree : FileTree
  /-- The name of this run in logs and traces. -/
  runId : Bytes
  /-- The time of day that log lines show. -/
  clock : Bytes
  /-- The time that trace lines show. -/
  timestamp : Bytes

/-- What an invocation leaves behind. -/
structure Ending where
  status : ExitStatus
  stdout : Bytes
  stderr : Bytes
  tree : FileTree
deriving DecidableEq, Repr

namespace Ending

/-- Puts what was written before in front. -/
def after (stdout stderr : Bytes) (e : Ending) : Ending :=
  { e with stdout := stdout ++ e.stdout, stderr := stderr ++ e.stderr }

end Ending

namespace Surroundings

/-- Ends with text on standard output. -/
def finish (s : Surroundings) (stdout : Bytes) : Ending :=
  ⟨.ok, if s.outputFault.isSome then [] else stdout, [], s.tree⟩

/-- Ends with a message on standard error. -/
def refuse (s : Surroundings) (message : Bytes) : Ending := ⟨.usage, [], message, s.tree⟩

end Surroundings

/-! ### Setting up -/

/-- The settings in force, and what follows from them. -/
structure Setup where
  surroundings : Surroundings
  settings : Settings
  printer : Printer
  level : LogLevel
  logger : Logger

/-- The settings, with what the flags before the command change. -/
def Settings.override (flags : Flags) (s : Settings) : Settings :=
  let given := fun (flag : Flag) (old : Bytes) =>
    let new := flags.text flag
    if new.isEmpty then old else new
  { s with
    pretty := s.pretty || flags.isOn .pretty
    color := given .color s.color
    logLevel := given .logLevel s.logLevel }

/-- The settings in force, or the message why there are none. -/
def Settings.effective (t : FileTree) (flags : Flags) : Except Bytes Settings := do
  let path := flags.text .config
  let found := if path.isEmpty then (discover t).2 else load t path
  let s ← found.mapError SettingsTrouble.message
  let s := s.override flags
  s.validate.mapError SettingsFault.message
  return s

namespace Setup

/-- What follows from settings. Colours are for terminals, which are not among the surroundings. -/
def ofSettings (around : Surroundings) (s : Settings) : Setup where
  surroundings := around
  settings := s
  printer := ⟨s.pretty, Color.ofName? s.color = some .always⟩
  level := (LogLevel.ofName? s.logLevel).getD .warn
  logger := ⟨[("module", "cli")]⟩

/-- The lines of log records. -/
def logLines (s : Setup) (records : List LogRecord) : Bytes :=
  LogRecord.lines s.surroundings.clock s.level records

/-- Ends with text on standard output. -/
def finish (s : Setup) (stdout : Bytes) : Ending := s.surroundings.finish stdout

/-- Ends with a diagnostic. -/
def fail (s : Setup) (f : Failure) : Ending :=
  ⟨.ofCode f.code, [], s.printer.print [f.toDiagnostic], s.surroundings.tree⟩

/-- Ends with a fault of no known place. -/
def failWith (s : Setup) (f : Fault) : Ending := s.fail (.ofFault f)

/-- Ends with text on standard output, which has to get there. -/
def deliver (s : Setup) (what : Written) (stdout : Bytes) : Ending :=
  match s.surroundings.outputFault with
  | some reason => s.failWith (.cannotWrite what reason)
  | none => s.finish stdout

/-- Ends after an activity on a workbench. -/
def conclude (s : Setup) (trail : Trail) (e : Ending) : Ending :=
  e.after trail.out (s.logLines trail.log)

/-- Ends with how a command is written. -/
def misused (s : Setup) (c : Command) : Ending :=
  s.surroundings.refuse
    ("usage: " ++ Help.programName ++ " " ++ c.name ++ " [options] " ++ c.arguments ++ "\n")

/-- The name that places in standard input show. -/
def stdinName : Bytes := "<stdin>"

/-- The source that a word names, and the name that its places show; a dash is standard input. -/
def source (s : Setup) (word : Bytes) : Except Fault (Bytes × Bytes) :=
  if word = "-" then
    match s.surroundings.stdin with
    | .ok text => .ok (text, stdinName)
    | .error reason => .error (.cannotReadInput reason)
  else
    match s.surroundings.tree.read word with
    | .ok text => .ok (text, word)
    | .error reason => .error (.cannotReadFile word (some reason))

/-- Does something with the source that the only argument names. -/
def withSource (s : Setup) (c : Command) (args : List Bytes) (use : Bytes → Bytes → Ending) :
    Ending :=
  match args with
  | [word] =>
    match s.source word with
    | .error f => s.failWith f
    | .ok (text, file) => use file text
  | _ => s.misused c

/-- A workbench that shows nothing by itself and has no cache. -/
def bench (s : Setup) : Workbench :=
  ⟨s.surroundings.outputFault, s.logger, [], false, false, false, none⟩

/-! ### Running programs -/

/-- The workbench for a run. -/
def runBench (s : Setup) (flags : Flags) : Workbench where
  outputFault := s.surroundings.outputFault
  logger := s.logger.child "run" s.surroundings.runId
  runId := s.surroundings.runId
  traced := !(flags.text .trace).isEmpty
  showInfix := (flags.switch? .showInfix).getD s.settings.showInfix
  showCode := (flags.switch? .showCode).getD s.settings.showCode
  cache := Workbench.cacheOfSize s.settings.cacheSize.toInt

/-- The mode of a run. -/
def runMode (s : Setup) (flags : Flags) : Bytes :=
  let given := flags.text .mode
  if given.isEmpty then s.settings.mode else given

/-- Runs a source. -/
def runSource (s : Setup) (flags : Flags) (file text : Bytes) : Trail × Option Failure :=
  let bench := s.runBench flags
  bench.run ⟨bench.traced, none⟩ file text (s.runMode flags)

/-- The lines of a trace. -/
def traceLines (s : Setup) (notices : List Notice) : Bytes :=
  notices.flatMap (Notice.traceLine s.surroundings.timestamp s.surroundings.runId)

/-- The files with the trace of a run, if one is wanted. -/
def withTrace (s : Setup) (flags : Flags) (notices : List Notice) : Except Fault FileTree :=
  let path := flags.text .trace
  if path.isEmpty then .ok s.surroundings.tree
  else match s.surroundings.tree.create path (s.traceLines notices) with
    | .ok tree => .ok tree
    | .error _ => .error (.cannotCreateTrace path)

/-- Runs a program, and writes its trace if one is wanted. -/
def run (s : Setup) (flags : Flags) (file text : Bytes) : Ending :=
  let (trail, failure) := s.runSource flags file text
  match s.withTrace flags trail.notices with
  | .error f => s.failWith f
  | .ok tree =>
    let ending := match failure with
      | some f => s.fail f
      | none => s.finish []
    s.conclude trail { ending with tree := tree }

/-- Runs a listing. -/
def exec (s : Setup) (file text : Bytes) : Ending :=
  match assemble file text with
  | .error f => s.fail f
  | .ok code =>
    let (trail, r) := s.bench.runMachine .unwatched 0 code
    s.conclude trail (match r.failure with
      | some f => s.fail f
      | none => s.finish [])

/-- One side of a comparison, as a line. -/
def outcomeLine (name : Bytes) (o : Outcome) : Bytes :=
  let bindings := o.store.entries.map fun (n, v) => n ++ ":" ++ Decimal.ofInt64 v
  let failure : Bytes := match o.code with
    | none => []
    | some code => " error " ++ code.name
  Bytes.padRight 12 (name ++ ":") ++ " prints " ++ Summary.showNumbers o.prints
    ++ " table map[" ++ Bytes.join " " bindings ++ "]" ++ failure ++ "\n"

/-- Compares both ways of running a program. -/
def verify (s : Setup) (file text : Bytes) : Ending :=
  match Program.ofSource file text with
  | .error f => s.fail f
  | .ok p =>
    match s.bench.verify .unwatched p with
    | (trail, .error f) => s.conclude trail (s.fail f)
    | (trail, .ok v) =>
      let sides := outcomeLine "interpreter" v.interpreter ++ outcomeLine "machine" v.machine
      s.conclude trail (
        if v.agree then s.finish (sides ++ "Execution paths agree.\n")
        else { s.finish (sides ++ "Execution paths disagree.\n") with status := .mismatch })

/-! ### Looking at programs -/

/-- Checks a program. -/
def check (s : Setup) (file text : Bytes) : Ending :=
  match Workbench.checkSource file text with
  | [] => s.finish (if s.settings.pretty then "No errors found.\n" else "[]\n")
  | failures =>
    ⟨.unreadable, [], s.printer.print (failures.map Failure.toDiagnostic), s.surroundings.tree⟩

/-- Shows a program in infix notation. -/
def format (s : Setup) (file text : Bytes) : Ending :=
  match Program.ofSource file text with
  | .error f => s.fail f
  | .ok p => s.deliver .output p.toInfix

/-- Writes the code of a program, to a file if one is named. -/
def compile (s : Setup) (flags : Flags) (file text : Bytes) : Ending :=
  let (_, trail, code) := s.bench.compileSource file text
  s.conclude trail (match code with
    | .error f => s.fail f
    | .ok code =>
      let path := flags.text .output
      if path.isEmpty then s.deliver .listing (listing code)
      else match s.surroundings.tree.create path (listing code) with
        | .ok tree => { s.finish [] with tree := tree }
        | .error _ => s.failWith (.cannotCreateOutput path))

/-- The line of a token. -/
def tokenLine (t : Token) : Bytes :=
  Decimal.ofInt t.span.startLine ++ ":" ++ Decimal.ofInt t.span.startCol ++ "\t" ++ t.kind.name
    ++ "\t" ++ t.text ++ "\n"

/-- Shows a program at a stage of its way to code. -/
def emit (s : Setup) (flags : Flags) (file text : Bytes) : Ending :=
  let stage := flags.text .stage
  if stage = "tokens" then
    match tokenize file text with
    | .error f => s.fail f
    | .ok tokens => s.finish (tokens.flatMap tokenLine)
  else
    match Program.ofSource file text with
    | .error f => s.fail f
    | .ok p =>
      if stage = "ast" then s.finish p.dump
      else if stage = "infix" then s.deliver .output p.toInfix
      else if stage = "code" then
        match p.compile with
        | .error f => s.fail f
        | .ok code => s.deliver .output (listing code)
      else s.surroundings.refuse ("unknown stage " ++ Quoted.encode stage
        ++ " (want tokens, ast, infix or code)\n")

/-- Summarizes a trace. A folder is a trace without events. -/
def trace (s : Setup) (flags : Flags) (args : List Bytes) : Ending :=
  match args with
  | [path] =>
    match s.surroundings.tree.look path with
    | .error _ => s.failWith (.cannotReadFile path none)
    | .ok found =>
      let text := match found with
        | .file contents => contents
        | .folder => []
      let summary := Summary.ofText text
      s.finish (if flags.isOn .text then summary.render else summary.toJson.render ++ "\n")
  | _ => s.misused .trace

/-! ### Sessions -/

/-- The lines that a session is given. -/
def inputs (s : Setup) : List Input :=
  match s.surroundings.stdin with
  | .error reason => [.broken reason]
  | .ok text => (Piecewise.pieces text).map fun p => .line p.text

/-- The logger of a session. -/
def sessionLogger (s : Setup) : Logger := s.logger.child "module" "repl"

/-- A warning about the file of remembered lines. -/
def historyWarning (s : Setup) (message reason : Bytes) : Bytes :=
  s.logLines [s.sessionLogger.warn message [("file", s.settings.historyFile), ("err", reason)]]

/-- The remembered lines, and the warning if not all could be read. -/
def remembered (s : Setup) : List Bytes × Bytes :=
  let path := s.settings.historyFile
  let (lines, fault) : List Bytes × Option Bytes :=
    match s.surroundings.tree.look path with
    | .error _ => ([], none)
    | .ok .folder => ([], some (FileFault.isFolder.message "read" path))
    | .ok (.file contents) => History.read contents
  (lines, ((fault.map (s.historyWarning "Failed to read history"))).getD [])

/-- The files with the remembered lines, and the warning if they could not be written. -/
def remember (s : Setup) (lines : List Bytes) : FileTree × Bytes :=
  let path := s.settings.historyFile
  if path.isEmpty then (s.surroundings.tree, [])
  else match s.surroundings.tree.create path (History.render lines) with
    | .ok tree => (tree, [])
    | .error reason => (s.surroundings.tree, s.historyWarning "Failed to save history" reason)

/-- What a piece of a session puts on standard output. -/
def pieceOut : Piece → Bytes
  | .prompt => Session.prompt
  | .output text => text
  | .log _ | .diagnostic _ => []

/-- What a piece of a session puts on standard error. -/
def pieceErr (s : Setup) : Piece → Bytes
  | .prompt | .output _ => []
  | .log record => s.logLines [record]
  | .diagnostic text => text

/-- Holds a session. -/
def repl (s : Setup) : Ending :=
  let (old, warning) := s.remembered
  let info : SessionInfo :=
    ⟨s.surroundings.outputFault, s.sessionLogger, .unwatched, s.printer⟩
  let c := Session.loop info s.inputs .start
  let (tree, unsaved) := s.remember (c.history.foldl History.add old)
  let ending := { s.finish (Session.greeting ++ c.pieces.flatMap pieceOut) with tree := tree }
  let written := warning ++ c.pieces.flatMap s.pieceErr ++ unsaved
  match c.fault with
  | none => { ending with stderr := written }
  | some reason => { ending with status := .usage, stderr := written ++ reason ++ "\n" }

end Setup

/-! ### Commands -/

/-- Shows a page of the manual. -/
def Surroundings.manual (s : Surroundings) (flags : Flags) (args : List Bytes) : Ending :=
  let topic := args.headD []
  if topic.isEmpty then s.finish Manual.summary
  else match Manual.find topic with
    | .error problem =>
      s.refuse (problem ++ "\nAvailable topics: " ++ Manual.topicNames Manual.Topic.all ++ "\n")
    | .ok found =>
      if !flags.isOn .index then s.finish found.text
      else match found with
        | .machine => s.finish Manual.machineIndex
        | .operators => s.finish Manual.operatorIndex
        | _ =>
          s.refuse "error: --index is only supported for the machine and operators topics\n"

/-- What a command does with its flags and arguments. -/
def Command.obey (s : Setup) (flags : Flags) (args : List Bytes) (c : Command) : Ending :=
  match c with
  | run => s.withSource c args (s.run flags)
  | check => s.withSource c args s.check
  | format => s.withSource c args s.format
  | compile => s.withSource c args (s.compile flags)
  | exec => s.withSource c args s.exec
  | emit => s.withSource c args (s.emit flags)
  | verify => s.withSource c args s.verify
  | repl => s.repl
  | trace => s.trace flags args
  | help => s.surroundings.manual flags args
  | dumpSettings => s.deliver .configuration s.settings.toToml

namespace Invocation

/-- Does what a command asks for. All commands but `help` need settings. -/
def command (s : Surroundings) (globals flags : Flags) (args : List Bytes) (c : Command) :
    Ending :=
  if c = .help then s.manual flags args
  else match Settings.effective s.tree globals with
    | .error message =>
      let printer : Printer := ⟨globals.isOn .pretty, false⟩
      s.refuse (printer.print [(Failure.ofFault (.badSettings message)).toDiagnostic])
    | .ok settings => c.obey (.ofSettings s settings) flags args

/-- Ends with a message about flags, and the help page under a heading. -/
def misuse (s : Surroundings) (heading page message : Bytes) : Ending :=
  { s.finish (heading ++ page) with status := .usage, stderr := message ++ "\n" }

/-- Reads the flags of a command, and obeys it. -/
def withCommand (s : Surroundings) (globals : Flags) (words : List Bytes) (c : Command) : Ending :=
  let (flags, outcome) := Flags.parse c.flags (Flags.gather words)
  match Flags.twoForms? c.flags flags, outcome with
  | some message, _ => misuse s (message ++ "\n\n") c.page message
  | none, .error f => misuse s ("Incorrect Usage: " ++ f.message ++ "\n\n") c.page f.message
  | none, .ok args =>
    if flags.isOn .help then s.finish c.page else command s globals flags args c

/-- A whole invocation, from the words after the program's name. -/
def run (s : Surroundings) (words : List Bytes) : Ending :=
  let (globals, outcome) := Flags.parse Flag.global words
  match Flags.twoForms? Flag.global globals, outcome with
  | some message, _ => misuse s (message ++ "\n") Help.program message
  | none, .error f => misuse s ("Incorrect Usage. " ++ f.message ++ "\n\n") Help.program f.message
  | none, .ok args =>
    if globals.isOn .help then s.finish Help.program
    else match args with
      | [] => s.finish Help.program
      | word :: rest =>
        match Command.ofName? word with
        | some c => withCommand s globals rest c
        | none => s.refuse ("Unknown command: " ++ word ++ "\n")

end Invocation

end Polish
