/-
An interactive run. Lines are answered one by one in a session, until one asks to quit, one is no
text, or there are no more. In front of every line there is a prompt, also in front of the end.
-/
import SciCalc.Prompt.Command
import SciCalc.Prompt.Output
import SciCalc.Session
import SciCalc.Text.Lines

namespace SciCalc

/-- A report as it is printed: as a record if `json` is set. Then a failure is a result, too. -/
def Report.print (json : Bool) (r : Report) : Output :=
  if json then Output.line r.json
  else if r.isSuccess then Output.line r.display
  else Output.failure r.display

namespace Prompt

/-- What is printed at the start. -/
def banner (mode : AngleMode) : String :=
  "Calculator (" ++ mode.display ++ ") - type an expression, or 'quit' to exit.\n" ++
    "Type 'help' for the list of commands.\n"

/-- What is printed in front of every line. -/
def prompt : String := "calc> "

/-- The help on expressions and commands. -/
def help : String :=
  "Enter expressions using + - * / % ^ ! and parentheses.\n" ++
    "Functions: sin cos tan asin acos atan ln log sqrt exp abs fact\n" ++
    "Constants: pi. `ans` is the last answer.\n" ++
    "Commands: quit, exit, help, history, deg, rad, mode, mc, mr, m+ [expr], m- [expr]"

/-- A number in the memory as it is shown. -/
def memoryText (x : Float) : String := String.ofList (Decimal.plainText x)

/-- The remembered results, numbered from the last one. -/
def historyOutput (s : Session) : Output :=
  { out := String.join ((s.history.zipIdx 1).map fun (entry, number) =>
      toString number ++ ": " ++ entry.expression ++ " = " ++ entry.display ++ "\n") }

/-- The output of a memory command, and the session after it. A failure leaves the session as it is. -/
def answerMemory (s : Session) : Except EvalError Session → Output × Session
  | .ok changed => (Output.line ("M = " ++ memoryText changed.memory), changed)
  | .error e => (Output.failure e.message, s)

/-- The output of a command, and the session after it. After `quit` there is neither. -/
def answer (json : Bool) (s : Session) : Command → Option (Output × Session)
  | .quit => none
  | .help => some (Output.line help, s)
  | .history => some (historyOutput s, s)
  | .setMode mode => some ({}, s.setMode mode)
  | .toggleMode => some (Output.line s.toggleMode.mode.display, s.toggleMode)
  | .memoryClear => some ({}, s.memoryClear)
  | .memoryRecall => some (Output.line (memoryText s.memory), s)
  | .memoryAdd operand => some (answerMemory s (s.memoryAdd operand))
  | .memorySubtract operand => some (answerMemory s (s.memorySubtract operand))
  | .evaluate expression =>
    let (report, s) := s.evaluate expression
    some (report.print json, s)

/-- Why a run ends. -/
inductive Ending where
  | quit
  | endOfInput
  /-- A line is not text. -/
  | undecodable
deriving DecidableEq, Repr

/-- What comes after a line: more, or the end. -/
inductive Next where
  | more (output : Output) (s : Session)
  | ended (ending : Ending)
deriving DecidableEq

/-- What comes after a line, if there is one. A blank line asks for nothing. -/
def next (json : Bool) (s : Session) : Option Text.Line → Next
  | none => .ended .endOfInput
  | some .undecodable => .ended .undecodable
  | some (.text content) =>
    match Text.trim content.toList with
    | [] => .more {} s
    | line =>
      match answer json s (Command.ofLine line) with
      | some (output, s) => .more output s
      | none => .ended .quit

/-- What is written at the end. -/
def Ending.output : Ending → Output
  | quit => {}
  | endOfInput => { out := "\n" }
  | undecodable => Output.failure "reading input"

/-- The status that a run ends with. Only a line that is no text is a failure. -/
def Ending.status : Ending → UInt32
  | quit | endOfInput => 0
  | undecodable => 1

/-- The outputs for the lines that are answered, and why the run ends. -/
def answers (json : Bool) (s : Session) : List Text.Line → List Output × Ending
  | [] => ([], .endOfInput)
  | line :: lines =>
    match next json s (some line) with
    | .more output s =>
      let (outputs, ending) := answers json s lines
      (output :: outputs, ending)
    | .ended ending => ([], ending)

/-- All that an interactive run writes. -/
def transcript (json : Bool) (s : Session) (lines : List Text.Line) : Output :=
  let (outputs, ending) := answers json s lines
  { out := banner s.mode } ++
    outputs.foldr (fun output rest => { out := prompt } ++ output ++ rest)
      ({ out := prompt } ++ ending.output)

end Prompt
end SciCalc
