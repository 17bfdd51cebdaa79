import Polish.Text.Quoted

/-!
# Flags

Words of a command line that start with a dash are flags. A flag has a value, in the same word after
an equals sign or in the next word, or it is a switch, which may be turned off by such a value only.
Flags end at the first word that is none; two dashes end them as well and are dropped.

* `Flag`: a flag that is known.
* `Flags.parse`: the flags at the front of a command line, and the words after them.
* `Flags.gather`: a command line with its flags moved to the front.
* `Flags.text`, `Flags.isOn`, `Flags.switch?`: the values of flags.
-/

namespace Polish

/-- A flag that is known. -/
structure Flag where
  /-- The names of the flag, the longest first. -/
  names : List Bytes
  /-- Is it a switch? -/
  switch : Bool
  usage : Bytes
  /-- The value if the flag is not given. -/
  default : Bytes
deriving DecidableEq, Repr

/-- Why flags cannot be read. -/
inductive FlagFault where
  | undefined (name : Bytes)
  | needsValue (name : Bytes)
  | notBoolean (value name : Bytes)
  | malformed (word : Bytes)
deriving DecidableEq, Repr

namespace FlagFault

/-- What is wrong. -/
def message : FlagFault → Bytes
  | undefined name => "flag provided but not defined: -" ++ name
  | needsValue name => "flag needs an argument: -" ++ name
  | notBoolean value name =>
    "invalid boolean value " ++ Quoted.encode value ++ " for -" ++ name ++ ": parse error"
  | malformed word => "bad flag syntax: " ++ word

end FlagFault

/-- The flags that were given: the names as written, with their values, in order. -/
abbrev Flags := List (Bytes × Bytes)

namespace Flags

/-- The dash that starts a flag. -/
def dash : UInt8 := 0x2D

/-- A word of two dashes, which ends the flags. -/
def terminator : Bytes := "--"

/-- Could the word be a flag? A dash alone could not. -/
def looksLikeFlag (word : Bytes) : Bool := word.head? = some dash && 2 ≤ word.length

/-- A flag's name and the value in the same word, if there is one. An equals sign in front belongs
to neither. -/
def splitWord (word : Bytes) : Bytes × Option Bytes :=
  let name := word.takeWhile (· ≠ 0x3D)
  if name.length < word.length then (name, some (word.drop (name.length + 1))) else (name, none)

/-- The truth value of a word. -/
def bool? (text : Bytes) : Option Bool :=
  if (["1", "t", "T", "TRUE", "true", "True"] : List Bytes).contains text then some true
  else if (["0", "f", "F", "FALSE", "false", "False"] : List Bytes).contains text then some false
  else none

/-- A truth value as a word. -/
def boolText (b : Bool) : Bytes := if b then "true" else "false"

/-- The value of a switch. -/
def switchValue (name : Bytes) : Option Bytes → Except FlagFault Bytes
  | none => .ok (boolText true)
  | some text =>
    match bool? text with
    | some b => .ok (boolText b)
    | none => .error (.notBoolean text name)

/-- Reads flags from the front of a command line. The result has the flags read before the first
fault, and the words after the flags or that fault. -/
def parse (known : List Flag) : List Bytes → Flags × Except FlagFault (List Bytes)
  | [] => ([], .ok [])
  | word :: rest =>
    if !looksLikeFlag word then ([], .ok (word :: rest))
    else if word = terminator then ([], .ok rest)
    else
      let body := (Bytes.dropPrefix? terminator word).getD word.tail
      if body.isEmpty || body.head? = some dash || body.head? = some 0x3D then
        ([], .error (.malformed word))
      else
        let (name, value) := splitWord body
        match known.find? fun f => f.names.contains name with
        | none => ([], .error (.undefined name))
        | some flag =>
          if flag.switch then
            match switchValue name value with
            | .error f => ([], .error f)
            | .ok v =>
              let (flags, outcome) := parse known rest
              ((name, v) :: flags, outcome)
          else
            match value, rest with
            | some v, rest =>
              let (flags, outcome) := parse known rest
              ((name, v) :: flags, outcome)
            | none, v :: rest =>
              let (flags, outcome) := parse known rest
              ((name, v) :: flags, outcome)
            | none, [] => ([], .error (.needsValue name))

/-- The message for the first flag that is given under two of its names. -/
def twoForms? (known : List Flag) (given : Flags) : Option Bytes :=
  known.findSome? fun flag =>
    match flag.names.filter fun name => given.any fun g => g.1 = name with
    | first :: second :: _ =>
      some ("Cannot use two forms of the same flag: " ++ second ++ " " ++ first)
    | _ => none

/-- Moves the words from the first flag up to the terminator to the front. -/
def gather (words : List Bytes) : List Bytes :=
  let front := words.takeWhile (· ≠ terminator)
  let tail := words.drop front.length
  let before := front.takeWhile fun word => !looksLikeFlag word
  front.drop before.length ++ before ++ tail

/-- The value of a flag. -/
def value? (flag : Flag) (given : Flags) : Option Bytes :=
  (given.reverse.find? fun g => flag.names.contains g.1).map Prod.snd

/-- The text of a flag. -/
def text (flag : Flag) (given : Flags) : Bytes := (value? flag given).getD flag.default

/-- The position of a switch, if it was given. -/
def switch? (flag : Flag) (given : Flags) : Option Bool :=
  (value? flag given).map (· == boolText true)

/-- Is a switch on? -/
def isOn (flag : Flag) (given : Flags) : Bool := (switch? flag given).getD false

end Flags

end Polish
