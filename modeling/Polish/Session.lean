import Polish.Compile
import Polish.Diagnostic.Render
import Polish.Eval
import Polish.Log
import Polish.Machine.Listing
import Polish.Store.Dump
import Polish.Tree.Parser
import Polish.Text.Blank

/-!
# Interactive sessions

In a session every line is read as statements and interpreted on one symbol table that lives for the
whole session. A line that starts with a colon, and is no assignment, is a command. Statements that
ran before a failure keep their effect.

* `Session`, `Session.eval`: one line.
* `Input`, `Piece`: what a user enters and what a session writes.
* `Session.loop`: a whole conversation.
-/

namespace Polish

/-- The state that the lines of a session share. -/
structure Session where
  store : Store
  /-- The code of the last line that was read. -/
  last : List Instr
deriving DecidableEq, Repr

/-- What surrounds a session. -/
structure SessionInfo where
  /-- Why every write fails, if it does. -/
  outputFault : Option Bytes
  logger : Logger
  watch : Watch
  printer : Printer
deriving DecidableEq, Repr

/-- What one line did. -/
structure Turn where
  session : Session
  out : Bytes
  log : List LogRecord
  failure : Option Failure
  /-- Does the session end? -/
  quit : Bool
deriving DecidableEq, Repr

namespace Session

/-- The prompt before every line. -/
def prompt : Bytes := "perp> "

/-- The greeting of a session. -/
def greeting : Bytes := "Perp REPL. Type :help for help, :quit to exit.\n"

/-- The list of commands. -/
def helpText : Bytes :=
  "Statements:  := <name> <expr>   @ <expr>\n" ++
  "Operators:   + - * //  (binary)   _ #  (negate, square root)\n" ++
  "Commands:    :table  :code  :reset  :help  :quit\n"

/-- The file name that places in a session show. -/
def fileName : Bytes := "<repl>"

/-- A session before its first line. -/
def start : Session := ⟨.empty, []⟩

/-- A line that only writes text. -/
def say (info : SessionInfo) (s : Session) (text : Bytes) : Turn :=
  ⟨s, if info.outputFault.isSome then [] else text, [], none, false⟩

/-- A line that fails. -/
def refuse (s : Session) (f : Failure) : Turn := ⟨s, [], [], some f, false⟩

/-- Obeys a command. -/
def command (info : SessionInfo) (line : Bytes) (s : Session) : Turn :=
  if ([":quit", ":q", ":exit"] : List Bytes).contains line then ⟨s, [], [], none, true⟩
  else if line = ":table" then s.say info (Store.dump s.store)
  else if line = ":code" then
    match info.outputFault with
    | some reason => s.refuse (.ofFault (.cannotWrite .listing reason))
    | none => s.say info (listing s.last)
  else if line = ":reset" then start.say info "Symbol table cleared.\n"
  else if line = ":help" then s.say info helpText
  else s.refuse (.ofFault (.unknownCommand line))

/-- Runs the statements of a line. -/
def statements (info : SessionInfo) (line : Bytes) (s : Session) : Turn :=
  match Program.ofSource fileName line with
  | .error f => s.refuse f
  | .ok p =>
    match p.compile with
    | .error f => s.refuse f
    | .ok code =>
      let x := execute ⟨{ info.watch with traced := false }, []⟩ p.toAction s.store
      let log : List LogRecord := match x.failure with
        | none => []
        | some f => [info.logger.debug "Execution failed" [("err", f.text)]]
      ⟨⟨x.progress.store, code⟩, if info.outputFault.isSome then [] else x.output, log, x.failure,
        false⟩

/-- Is the line a command? -/
def isCommand (line : Bytes) : Bool :=
  Bytes.hasPrefix ":" line && !Bytes.hasPrefix assignMarker line

/-- Handles one line. -/
def eval (info : SessionInfo) (line : Bytes) (s : Session) : Turn :=
  let line := line.trim
  if isCommand line then s.command info line
  else if line.isEmpty then s.say info []
  else s.statements info line

end Session

/-! ### Conversations -/

/-- What a session is given when it asks for a line. -/
inductive Input where
  | line (text : Bytes)
  /-- The input has ended. -/
  | finished
  /-- The user has given up on the line. -/
  | aborted
  /-- The input cannot be read. -/
  | broken (reason : Bytes)
deriving DecidableEq, Repr

/-- What a session writes, piece by piece. -/
inductive Piece where
  | prompt
  | output (text : Bytes)
  | log (record : LogRecord)
  | diagnostic (text : Bytes)
deriving DecidableEq, Repr

/-- A conversation that has ended. -/
structure Conversation where
  session : Session
  pieces : List Piece
  /-- The lines worth remembering, in order. -/
  history : List Bytes
  /-- How many inputs were not asked for. -/
  unread : Nat
  /-- Why reading failed, if it did. -/
  fault : Option Bytes
deriving DecidableEq, Repr

namespace Conversation

/-- Puts what came before in front. -/
def after (pieces : List Piece) (history : List Bytes) (c : Conversation) : Conversation :=
  { c with pieces := pieces ++ c.pieces, history := history ++ c.history }

end Conversation

namespace Session

/-- What a line makes the session write. -/
def turnPieces (info : SessionInfo) (t : Turn) : List Piece :=
  .output t.out :: t.log.map .log ++ match t.failure with
    | none => []
    | some f => [.diagnostic (info.printer.print [f.toDiagnostic])]

/-- Reads and handles lines until the input ends, the user gives up or a command ends the session. A
canceled session ends after its first line. -/
def loop (info : SessionInfo) : List Input → Session → Conversation
  | [], s | [.finished], s | [.aborted], s => ⟨s, [.prompt], [], 0, none⟩
  | .finished :: rest, s | .aborted :: rest, s => ⟨s, [.prompt], [], rest.length, none⟩
  | .broken reason :: rest, s => ⟨s, [.prompt], [], rest.length, some ("repl: " ++ reason)⟩
  | .line text :: rest, s =>
    let t := s.eval info text
    let pieces := .prompt :: turnPieces info t
    let history := if text.trim.isEmpty then [] else [text]
    if t.quit || info.watch.canceled 0 then ⟨t.session, pieces, history, rest.length, none⟩
    else (loop info rest t.session).after pieces history

end Session

end Polish
