/-
What is reported of an expression: the expression as it was typed, and its value or why it has none.
A report is displayed to the user, copied, or passed on as a record.
-/
import SciCalc.Decimal.Places
import SciCalc.Evaluation
import SciCalc.Json.Object

namespace SciCalc

/-- An expression with the outcome of its evaluation. -/
structure Report where
  expression : String
  outcome : Except EvalError Float

namespace Report

/-- The report of an expression that is evaluated as it stands. -/
def ofText (mode : AngleMode) (text : String) : Report := ⟨text, evaluate mode text⟩

/-- Whether the expression has a value. It may be infinite, or no number. -/
def isSuccess (r : Report) : Bool := r.outcome.isOk

/-- The value. -/
def value? (r : Report) : Option Float := r.outcome.toOption

/-- What the user sees: the value with grouped digits, or the error. -/
def display (r : Report) : String :=
  match r.outcome with
  | .ok x => String.ofList (Decimal.displayText x)
  | .error e => e.message

/-- What is copied. An error is not. -/
def clipboard? (r : Report) : Option String :=
  r.value?.map fun x => String.ofList (Decimal.clipboardText x)

/-- The report as a record. -/
def record (r : Report) : Json.Object :=
  match r.outcome with
  | .ok x =>
    [("status", .text "success"), ("expression", .text r.expression), ("value", .number x),
     ("display_result", .text (String.ofList (Decimal.displayText x))),
     ("clipboard_result", .text (String.ofList (Decimal.clipboardText x)))]
  | .error e =>
    [("status", .text "error"), ("expression", .text r.expression), ("message", .text e.message)]

/-- The text of that record. -/
def json (r : Report) : String := String.ofList r.record.written

end Report
end SciCalc
