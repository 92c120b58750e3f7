/-
The value of an expression as it is typed: its text is scanned, the tokens become a program, and the
program is run. The first of the three that fails gives the error.
-/
import SciCalc.Program.OfTokens
import SciCalc.Program.Run
import SciCalc.Token.Scan

namespace SciCalc

/-- Why an expression has no value. -/
inductive EvalError where
  | scan (e : ScanError)
  | parse (e : ParseError)
  | run (e : RunError)
deriving DecidableEq, Repr

/-- What the user is told about it. -/
def EvalError.message : EvalError → String
  | scan e => e.message
  | parse e => e.message
  | run e => e.message

/-- The program that a text stands for. -/
def programOfText (text : String) : Except EvalError Program :=
  match Token.ofText text with
  | .error e => .error (.scan e)
  | .ok ts => (Program.ofTokens ts).mapError .parse

/-- The value of a text. Nothing at all is worth zero. -/
def evaluate (mode : AngleMode) (text : String) : Except EvalError Float :=
  if text = "" then .ok (Double.ofNat 0)
  else
    match programOfText text with
    | .error e => .error e
    | .ok p => (p.run mode).mapError .run

end SciCalc
