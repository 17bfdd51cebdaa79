import Polish.FileTree
import Polish.Yaml.Decode

/-!
# Scenarios

A scenario is a folder with a description of a run: the command line, the program as a list of words
or in a file beside it, and what is expected of the run. Only what is stated is expected.

* `Scenario`, `Scenario.Expectation`
* `Scenario.mode`: the mode that the command line asks for.
* `Scenario.find`: the scenarios below a folder.
* `Scenario.load`: a scenario.
* `Scenario.program`: the program in the file that the command line names.
-/

namespace Polish

namespace Scenario

/-- Remarks on a scenario. -/
structure Remarks where
  description : Bytes
  tags : List Bytes
deriving DecidableEq, Repr

/-- The failure that is expected; its value as text. -/
structure ExpectedFailure where
  code : Bytes
  value : Bytes
deriving DecidableEq, Repr

/-- What is expected of a run. -/
structure Expectation where
  exitCode : Int64
  prints : List Int64
  table : NameMap Int64
  code : List Bytes
  failure : Option ExpectedFailure
  stdout : List Bytes
  /-- Expected diagnostics, each as text. -/
  diagnostics : List Bytes
deriving DecidableEq, Repr

end Scenario

/-- The description of a run. -/
structure Scenario where
  command : List Bytes
  tokens : List Bytes
  remarks : Option Scenario.Remarks
  expectation : Scenario.Expectation
deriving DecidableEq, Repr

namespace Scenario

/-! ### Reading -/

/-- A list of texts. -/
def texts? : Yaml.Node → Yaml.Decode (Option (List Bytes)) := Yaml.list? "[]string" Yaml.text?

/-- A record that may be missing. -/
def remarks? : Yaml.Node → Yaml.Decode (Option Remarks) :=
  Yaml.record? "testutil.ScenarioMeta"
    [.of "description" Yaml.text? fun x r => { r with description := x },
      .of "tags" texts? fun x r => { r with tags := x }] ⟨[], []⟩

/-- The failure that is expected. -/
def failure? : Yaml.Node → Yaml.Decode (Option ExpectedFailure) :=
  Yaml.record? "testutil.ExpectedError"
    [.of "code" Yaml.text? fun x r => { r with code := x },
      .of "value" Yaml.anything fun x r => { r with value := x.render }]
    ⟨[], Yaml.Value.null.render⟩

/-- What is expected of a run. -/
def expectation? : Yaml.Node → Yaml.Decode (Option Expectation) :=
  Yaml.record "testutil.ExpectedResult"
    [.of "exitCode" (Yaml.int64? "int") fun x r => { r with exitCode := x },
      .of "prints" (Yaml.list? "[]int64" (Yaml.int64? "int64")) fun x r => { r with prints := x },
      .of "table" (Yaml.map? "map[string]int64" 0 (Yaml.int64? "int64"))
        fun x r => { r with table := x },
      .of "code" texts? fun x r => { r with code := x },
      .of "error" failure? fun x r => { r with failure := some x },
      .of "stdoutContains" texts? fun x r => { r with stdout := x },
      .of "diagnosticsSubset"
        (Yaml.list? "[]map[string]interface \x7b\x7d"
          (Yaml.textTable? "map[string]interface \x7b\x7d"))
        fun x r => { r with diagnostics := x.map Yaml.Value.render }]
    ⟨0, [], .empty, [], none, [], []⟩

/-- A scenario with nothing in it. -/
def blank : Scenario := ⟨[], [], none, ⟨0, [], .empty, [], none, [], []⟩⟩

/-- A scenario. -/
def scenario? : Yaml.Node → Yaml.Decode (Option Scenario) :=
  Yaml.record "testutil.Scenario"
    [.of "cmd" texts? fun x r => { r with command := x },
      .of "tokens" texts? fun x r => { r with tokens := x },
      .of "meta" remarks? fun x r => { r with remarks := some x },
      .of "expect" expectation? fun x r => { r with expectation := x }] blank

/-- The name of the file that describes a scenario. -/
def fileName : Bytes := "scenario.yaml"

/-- The scenario in a folder, or the message why there is none. -/
def load (t : FileTree) (folder : Bytes) : Except Bytes Scenario :=
  let refuse := fun (reason : Bytes) => Except.error ("scenario " ++ folder ++ ": " ++ reason)
  let path := Path.join folder fileName
  match t.look path with
  | .error f => .error (f.message "open" path)
  | .ok .folder => refuse ("yaml: input error: " ++ FileFault.isFolder.message "read" path)
  | .ok (.file contents) =>
    match Yaml.load scenario? contents with
    | .error trouble => refuse trouble.message
    | .ok found =>
      let s := found.getD blank
      if s.command.isEmpty then refuse "cmd is empty" else .ok s

/-! ### Using -/

/-- The mode that a command line asks for. -/
def modeOf : List Bytes → Bytes
  | [] => "both"
  | arg :: rest =>
    if arg = "--mode" && !rest.isEmpty then rest.headD []
    else match Bytes.dropPrefix? "--mode=" arg with
      | some mode => mode
      | none => modeOf rest

/-- The mode of a scenario. -/
def mode (s : Scenario) : Bytes := modeOf s.command

/-- The folders below a folder that hold a scenario, ascending by name, or why there are none. -/
def find (t : FileTree) (root : Bytes) : Except Bytes (List Bytes) := do
  let names ← t.folders root
  let holds := fun name => (t.look (Path.join (Path.join root name) fileName)).isOk
  return (names.filter holds).map (Path.join root)

/-- The program in the file that the command line names, and the name of the file; both empty if it
names none. -/
def program (t : FileTree) (folder : Bytes) (s : Scenario) : Except Bytes (Bytes × Bytes) :=
  match s.command with
  | _ :: name :: _ =>
    if Bytes.hasPrefix "-" name then .ok ([], [])
    else return (← t.read (Path.join folder name), name)
  | _ => .ok ([], [])

end Scenario

end Polish
