/-
The lines that are typed at the prompt: commands, and expressions. A command's name may be typed in
either case. A memory command is followed by its operand without anything between them; every other
command is the whole line.
-/
import SciCalc.AngleMode

namespace SciCalc

/-- What a line asks for. -/
inductive Command where
  | quit
  | help
  | history
  | setMode (mode : AngleMode)
  | toggleMode
  | memoryClear
  | memoryRecall
  | memoryAdd (operand : String)
  | memorySubtract (operand : String)
  | evaluate (expression : String)
deriving DecidableEq, Repr

namespace Command

/-- The commands that are whole lines, with their names. -/
def keywords : List (String × Command) :=
  [("quit", quit), ("exit", quit), ("help", help), ("history", history), ("deg", setMode .degrees),
   ("rad", setMode .radians), ("mode", toggleMode), ("mc", memoryClear), ("mr", memoryRecall)]

/-- The command that a whole line names. -/
def keyword? (line : List Char) : Option Command :=
  (keywords.find? fun known => Text.sameLetters line known.1.toList).map (·.2)

/-- What a line asks for that names no command by itself. -/
def ofOtherLine : List Char → Command
  | c :: '+' :: operand =>
    if c = 'm' ∨ c = 'M' then memoryAdd (String.ofList operand)
    else evaluate (String.ofList (c :: '+' :: operand))
  | c :: '-' :: operand =>
    if c = 'm' ∨ c = 'M' then memorySubtract (String.ofList operand)
    else evaluate (String.ofList (c :: '-' :: operand))
  | line => evaluate (String.ofList line)

/-- What a line asks for, which has no white space around it. -/
def ofLine (line : List Char) : Command := (keyword? line).getD (ofOtherLine line)

end Command
end SciCalc
