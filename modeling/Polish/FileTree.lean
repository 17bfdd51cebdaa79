import Polish.NameMap

/-!
# Files and folders

What a run of the program can see of a file system: the files with their contents, the folder it is
started in, and the user's home folder. A folder is there when a file lies below it, or when it is
listed as bare. Paths are walked step by step, so that `a/../b` needs a folder `a`.

* `Path.join`, `Path.extension`: paths as text.
* `FileTree`: files by their absolute paths.
* `FileTree.look`, `FileTree.read`, `FileTree.create`, `FileTree.folders`
* `FileTree.changes`: what is new in a tree.
-/

namespace Polish

namespace Path

/-- The byte between the steps of a path. -/
def slash : UInt8 := 0x2F

/-- The steps of a path. -/
def steps (path : Bytes) : List Bytes := path.splitOn slash

/-- Does the path start at the root? -/
def isAbsolute (path : Bytes) : Bool := path.head? = some slash

/-- Steps without those that lead nowhere; `done` are the steps before, the last one first. -/
def cleanSteps (absolute : Bool) : List Bytes → List Bytes → List Bytes
  | done, [] => done.reverse
  | done, step :: rest =>
    if step.isEmpty || step = "." then cleanSteps absolute done rest
    else if step = ".." then
      match done with
      | last :: before =>
        if last = ".." then cleanSteps absolute (step :: done) rest
        else cleanSteps absolute before rest
      | [] => cleanSteps absolute (if absolute then [] else [step]) rest
    else cleanSteps absolute (step :: done) rest

/-- The shortest path that leads to the same place. -/
def clean (path : Bytes) : Bytes :=
  let start : Bytes := if isAbsolute path then [slash] else []
  let result := start ++ Bytes.join [slash] (cleanSteps (isAbsolute path) [] (steps path))
  if result.isEmpty then "." else result

/-- The path of something inside a folder. -/
def join (folder name : Bytes) : Bytes :=
  if folder.isEmpty then (if name.isEmpty then [] else clean name)
  else if name.isEmpty then clean folder
  else clean (folder ++ slash :: name)

/-- The part of the last step from its last point on; nothing if it has no point. -/
def extension (path : Bytes) : Bytes :=
  let last := (steps path).getLastD []
  if last.contains 0x2E then 0x2E :: (last.reverse.takeWhile (· ≠ 0x2E)).reverse else []

/-- How many bytes a path may have. -/
def longest : Nat := 4095

/-- How many bytes a step of a path may have. -/
def longestStep : Nat := 255

/-- The steps around the last one, if that is a name with a slash after it. -/
def folderName? (path : Bytes) : Option (List Bytes) :=
  let bare := (path.reverse.dropWhile (· = slash)).reverse
  let last := (steps bare).getLastD []
  if bare.length = path.length || last.isEmpty || last = "." || last = ".." then none
  else some (steps bare).dropLast

end Path

/-- Why a file cannot be used. -/
inductive FileFault where
  | missing
  | isFolder
  | notFolder
  /-- The path, or one of its steps, is longer than a path or a step may be. -/
  | tooLong
  /-- The path holds a zero byte. -/
  | notPath
deriving DecidableEq, Repr

namespace FileFault

/-- The reason as text. -/
def text : FileFault → Bytes
  | missing => "no such file or directory"
  | isFolder => "is a directory"
  | notFolder => "not a directory"
  | tooLong => "file name too long"
  | notPath => "invalid argument"

/-- What went wrong, with what was tried and where. -/
def message (f : FileFault) (action path : Bytes) : Bytes := action ++ " " ++ path ++ ": " ++ f.text

end FileFault

/-- The files that a run can see. -/
structure FileTree where
  /-- The absolute path of the folder that relative paths start from. -/
  work : Bytes
  /-- The absolute path of the user's home folder. -/
  home : Bytes
  /-- The contents of the files, by their absolute paths. -/
  files : NameMap Bytes
  /-- Folders that are there although no file of the tree lies below them. -/
  bareFolders : List Bytes := []
deriving DecidableEq, Repr

/-- What a path leads to. -/
inductive Found where
  | file (contents : Bytes)
  | folder
deriving DecidableEq, Repr

namespace FileTree

/-- Is there a folder at an absolute path? -/
def isFolder (t : FileTree) (place : Bytes) : Bool :=
  place = t.work || place = t.home || t.bareFolders.contains place
    || (t.work :: t.home :: t.files.names).any (Bytes.hasPrefix (place ++ [Path.slash]))

/-- The absolute path of the folder around a place. -/
def parent (place : Bytes) : Bytes := Bytes.join [Path.slash] (Path.steps place).dropLast

/-- Walks from a place along steps; every step starts from a folder. -/
def walk (t : FileTree) : Bytes → List Bytes → Except FileFault Bytes
  | place, [] => .ok place
  | place, step :: rest =>
    if t.isFolder place then
      if step.isEmpty || step = "." then t.walk place rest
      else if step = ".." then t.walk (parent place) rest
      else if Path.longestStep < step.length then .error .tooLong
      else t.walk (place ++ Path.slash :: step) rest
    else if t.files.has place then .error .notFolder
    else .error .missing

/-- Where a path sets out from. -/
def origin (t : FileTree) (path : Bytes) : Bytes := if Path.isAbsolute path then [] else t.work

/-- Can a path lead anywhere at all? The empty path cannot. -/
def usable (path : Bytes) : Except FileFault Unit :=
  if path.contains 0 then .error .notPath
  else if path.isEmpty then .error .missing
  else if Path.longest < path.length then .error .tooLong
  else .ok ()

/-- The absolute path of a path. -/
def resolve (t : FileTree) (path : Bytes) : Except FileFault Bytes := do
  usable path
  t.walk (t.origin path) (Path.steps path)

/-- The absolute path of a file that is to be written. A name with a slash after it is the name of a
folder, whether there is one or not. -/
def resolveNew (t : FileTree) (path : Bytes) : Except FileFault Bytes := do
  let place ← match Path.folderName? path with
    | none => t.resolve path
    | some around =>
      usable path
      let _ ← t.walk (t.origin path) (around ++ [("." : Bytes)])
      throw .isFolder
  if t.isFolder place then throw .isFolder
  return place

/-- What a path leads to. -/
def look (t : FileTree) (path : Bytes) : Except FileFault Found := do
  let place ← t.resolve path
  match t.files.get? place with
  | some contents => return .file contents
  | none => if t.isFolder place then return .folder else throw .missing

/-- The contents of a file, or the message why there are none. -/
def read (t : FileTree) (path : Bytes) : Except Bytes Bytes :=
  match t.look path with
  | .ok (.file contents) => .ok contents
  | .ok .folder => .error (FileFault.isFolder.message "read" path)
  | .error f => .error (f.message "open" path)

/-- The tree with a file of given contents, or the message why it cannot be written. -/
def create (t : FileTree) (path contents : Bytes) : Except Bytes FileTree :=
  match t.resolveNew path with
  | .error f => .error (f.message "open" path)
  | .ok place => .ok { t with files := t.files.put place contents }

/-- The names of the folders in a folder, ascending, or the message why there are none. -/
def folders (t : FileTree) (path : Bytes) : Except Bytes (List Bytes) :=
  match t.resolve path, t.look path with
  | .ok place, .ok .folder =>
    let below := t.files.names.filterMap (Bytes.dropPrefix? (place ++ [Path.slash]))
    let names := below.filterMap fun name =>
      match Path.steps name with
      | first :: _ :: _ => some (first, ())
      | _ => none
    .ok (NameMap.ofList names).names
  | .ok _, .ok (.file _) => .error (FileFault.notFolder.message "open" path)
  | _, .error f | .error f, _ => .error (f.message "open" path)

/-- The files of a tree that are new or have other contents than before. -/
def changes (before after : FileTree) : List (Bytes × Bytes) :=
  after.files.entries.filter fun (place, contents) => before.files.get? place ≠ some contents

end FileTree

end Polish
