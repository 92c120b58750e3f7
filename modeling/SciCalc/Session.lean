/-
A session: what the calculator remembers from one expression to the next. This is the angle mode, the
last answer, a memory register, and the latest results. An expression that has no value changes
nothing.
-/
import SciCalc.Answer
import SciCalc.Config
import SciCalc.Report

namespace SciCalc

/-- A remembered result: an expression as it was typed, and its value. -/
structure HistoryEntry where
  expression : String
  value : Float
deriving DecidableEq

/-- The value as it was displayed. -/
def HistoryEntry.display (entry : HistoryEntry) : String :=
  String.ofList (Decimal.displayText entry.value)

/-- What the calculator remembers. -/
structure Session where
  mode : AngleMode
  /-- How many results are remembered at most. -/
  historyLimit : Nat
  /-- The value of the last expression that had one. -/
  answer : Float := Double.ofNat 0
  memory : Float := Double.ofNat 0
  /-- The latest results, the last one first. -/
  history : List HistoryEntry := []
deriving DecidableEq

namespace Session

/-- A new session with the configured settings. -/
def ofConfig (config : Config) : Session :=
  { mode := config.angleMode, historyLimit := config.historyLimit }

/-- A text with the last answer in the place of `ans`. -/
def expand (s : Session) (text : String) : String := Answer.expand s.answer text

/-- The outcome of an expression in the session. -/
def outcome (s : Session) (text : String) : Except EvalError Float :=
  SciCalc.evaluate s.mode (s.expand text)

/-- The session after an expression had a value. -/
def record (s : Session) (expression : String) (value : Float) : Session :=
  { s with answer := value, history := (⟨expression, value⟩ :: s.history).take s.historyLimit }

/-- Evaluates an expression, and remembers its value if it has one. -/
def evaluate (s : Session) (text : String) : Report × Session :=
  let outcome := s.outcome text
  (⟨text, outcome⟩, match outcome with
    | .ok value => s.record text value
    | .error _ => s)

/-- Forgets the results. -/
def clearHistory (s : Session) : Session := { s with history := [] }

def setMode (s : Session) (mode : AngleMode) : Session := { s with mode }

/-- Changes to the other mode. -/
def toggleMode (s : Session) : Session := s.setMode s.mode.toggle

/-- What a memory command is about: the value of its text, or the last answer if that is blank. -/
def operand (s : Session) (text : String) : Except EvalError Float :=
  if Text.trim text.toList = [] then .ok s.answer else s.outcome text

/-- Adds an operand to the memory. -/
def memoryAdd (s : Session) (text : String) : Except EvalError Session :=
  (s.operand text).map fun value => { s with memory := s.memory + value }

/-- Subtracts an operand from the memory. -/
def memorySubtract (s : Session) (text : String) : Except EvalError Session :=
  (s.operand text).map fun value => { s with memory := s.memory - value }

/-- Sets the memory to zero. -/
def memoryClear (s : Session) : Session := { s with memory := Double.ofNat 0 }

end Session
end SciCalc
