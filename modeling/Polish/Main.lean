import Polish.Instant
import Polish.Invocation
import Std.Time.DateTime.Timestamp

/-!
# The program

An invocation is a function of what it sees. The program looks at the files that the command line can
name, runs the invocation on that picture, and then carries out what it ended with.

* `Survey.named`: the paths that the words of a command line can name.
* `Survey.add`: adds a path to the picture.
* `Survey.ofWords`: the picture for a command line.
* `main`: the program.
-/

namespace Polish

namespace Survey

/-- The paths that words can name: every word, and what follows an equals sign in one. -/
def named (words : List Bytes) : List Bytes :=
  words ++ words.filterMap fun word => (Flags.splitWord word).2

/-- The file of remembered lines, if the settings can be read. -/
def historyFile (t : FileTree) (words : List Bytes) : Bytes :=
  let (globals, _) := Flags.parse Flag.global words
  match Settings.effective t globals with
  | .ok s => s.historyFile
  | .error _ => []

/-- Can a command line ask for standard input? -/
def wantsInput (words : List Bytes) : Bool := words.contains "-" || words.contains Command.repl.name

/-- The beginnings of a path that end with a step. -/
def waypoints (path : Bytes) : List Bytes :=
  let steps := Path.steps path
  (List.range steps.length).map fun n => Bytes.join [Path.slash] (steps.take (n + 1))

/-- Adds a folder or a file to the picture, as it is found. -/
def addPlace (t : FileTree) (place : Bytes) : IO FileTree := do
  let name := place.toString
  if ← ((← IO.currentDir) / name).isDir then
    return { t with bareFolders := place :: t.bareFolders }
  try
    let contents ← IO.FS.readBinFile name
    return { t with files := t.files.put place contents.toList }
  catch _ => return t

/-- Adds a path and the folders on the way to it. -/
def add (t : FileTree) (path : Bytes) : IO FileTree := do
  if path.isEmpty then return t
  let full := if Path.isAbsolute path then path else t.work ++ Path.slash :: path
  (waypoints full).foldlM (fun t p => addPlace t (Path.clean p)) t

/-- What the words of a command line can name, and the places of settings and remembered lines. -/
def ofWords (words : List Bytes) : IO FileTree := do
  let work := (← IO.currentDir).toString
  let home := (← IO.getEnv "HOME").getD work
  let t : FileTree := { work := work, home := home, files := .empty }
  let t ← (Settings.places t ++ named words).foldlM add t
  add t (historyFile t words)

end Survey

namespace Console

/-- A number in base 36, with small letters for the digits after nine. -/
def base36 (n : Nat) : Bytes :=
  let digit : UInt8 := (if n % 36 < 10 then 0x30 + n % 36 else 0x57 + n % 36).toUInt8
  if n < 36 then [digit] else base36 (n / 36) ++ [digit]

/-- All that is left in a stream. -/
partial def drain (stream : IO.FS.Stream) (got : ByteArray) : IO ByteArray := do
  let more ← stream.read 65536
  if more.isEmpty then return got else drain stream (got ++ more)

/-- Standard input, or why it cannot be read. -/
def readInput : IO (Except Bytes Bytes) := do
  try
    return .ok (← drain (← IO.getStdin) .empty).toList
  catch e => return .error e.toString

end Console

end Polish

open Polish in
/-- Runs an invocation and carries its ending out. Whether standard output takes what is written
shows only then; an invocation whose output is refused is run again as one that knows. -/
def main (args : List String) : IO UInt32 := do
  let words := args.map Bytes.ofString
  let now ← Std.Time.Timestamp.now
  let nanos := now.toNanosecondsSinceUnixEpoch.toInt
  let instant := Instant.ofEpochNanos nanos
  let input ← if Survey.wantsInput words then Console.readInput else pure (.ok [])
  let tree ← Survey.ofWords words
  let around : Surroundings := {
    stdin := input
    outputFault := none
    tree := tree
    runId := "run-" ++ Console.base36 nanos.toNat
    clock := instant.clock
    timestamp := instant.render }
  let stdout ← IO.getStdout
  let ending := Invocation.run around words
  let ending ← try
      stdout.write ending.stdout.toByteArray
      stdout.flush
      pure ending
    catch e => pure (Invocation.run { around with outputFault := some e.toString } words)
  for (place, contents) in around.tree.changes ending.tree do
    IO.FS.writeBinFile place.toString contents.toByteArray
  (← IO.getStderr).write ending.stderr.toByteArray
  return ending.status.number.toUInt32
