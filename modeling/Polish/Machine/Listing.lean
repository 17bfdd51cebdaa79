import Polish.Fault
import Polish.Machine.Instr
import Polish.Text.Blank
import Polish.Text.Line

/-!
# Listings

A listing is a program as text, one instruction a line, under a header and before a blank line.
Reading a listing back skips blank lines, comment lines and the header.

* `listing`: the text of a program.
* `Instr.ofLine`: the instruction on a line.
* `assemble`: the program of a listing, or the first line that is wrong.
-/

namespace Polish

/-- The title line of a listing. -/
def listingHeader : Bytes := "Compiled code:"

/-- The line of an instruction, with its end. -/
def Instr.line (i : Instr) : Bytes := i.text ++ "\n"

/-- The text of a program. -/
def listing (code : List Instr) : Bytes :=
  "\n" ++ listingHeader ++ "\n" ++ code.flatMap Instr.line ++ "\n"

/-- A line that holds no instruction. -/
def isSkipped (line : Bytes) : Bool :=
  line == [] || line == listingHeader || Bytes.hasPrefix ";" line

/-- The instruction of an operation and the words after its mnemonic; `line` is the whole line. -/
def Operation.assemble (o : Operation) (line : Bytes) (operands : List Bytes) :
    Except Fault Instr :=
  match o.operand, operands with
  | .none, [] => .ok (.plain o)
  | .number, [word] =>
    match Decimal.readInt64? word with
    | some v => .ok (.push v)
    | none => .error (.badInteger word)
  | .name, [word] => .ok ⟨o.number, 0, word⟩
  | .none, _ => .error (.operandCount o.mnemonic 0 line)
  | _, _ => .error (.operandCount o.mnemonic 1 line)

/-- The instruction on a line that is not skipped. -/
def Instr.ofLine (line : Bytes) : Except Fault Instr :=
  match line.fields with
  | [] => .error (.unknownMnemonic [])
  | word :: operands =>
    match Operation.ofMnemonic? word with
    | none => .error (.unknownMnemonic word)
    | some o => o.assemble line operands

/-- The instructions of the lines from line `number` on. -/
def assembleLines (file : Bytes) : Nat → List Bytes → Except Failure (List Instr)
  | _, [] => .ok []
  | number, raw :: rest =>
    let line := raw.trim
    if isSkipped line then assembleLines file (number + 1) rest
    else match Instr.ofLine line with
      | .error f => .error (.atSpan f ⟨file, number, 1, number, line.length + 1⟩)
      | .ok i => (assembleLines file (number + 1) rest).map (i :: ·)

/-- The program of a listing. -/
def assemble (file text : Bytes) : Except Failure (List Instr) := do
  let code ← assembleLines file 1 (Line.readable text)
  if Line.tooLong text then .error (.ofFault .lineTooLong) else return code

end Polish
