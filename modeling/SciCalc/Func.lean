/-
The twelve functions that an expression can call. Each takes one argument; only the trigonometric
ones look at the angle mode.
-/
import SciCalc.AngleMode
import SciCalc.Double.Factorial

namespace SciCalc

/-- A function of one argument. -/
inductive Func where
  | sin | cos | tan | asin | acos | atan | ln | log | sqrt | exp | abs | fact
deriving DecidableEq, Repr

namespace Func

/-- The functions in the order in which the keypad shows them. -/
def all : List Func := [sin, cos, tan, asin, acos, atan, ln, log, sqrt, exp, abs, fact]

/-- The name by which a function is called. -/
def name : Func → String
  | sin => "sin" | cos => "cos" | tan => "tan"
  | asin => "asin" | acos => "acos" | atan => "atan"
  | ln => "ln" | log => "log" | sqrt => "sqrt"
  | exp => "exp" | abs => "abs" | fact => "fact"

/-- The function called by a name, in just that case. -/
def ofName? (name : String) : Option Func := all.find? fun f => f.name == name

@[simp] theorem ofName?_name (f : Func) : ofName? f.name = some f := by cases f <;> decide

/-- A name that is found is the function's own. -/
theorem name_of_ofName? {name : String} {f : Func} (h : ofName? name = some f) : f.name = name := by
  simpa using List.find?_some h

/-- The value of a call. -/
def apply (f : Func) (mode : AngleMode) (x : Float) : Float :=
  match f with
  | sin => (mode.toRadians x).sin
  | cos => (mode.toRadians x).cos
  | tan => (mode.toRadians x).tan
  | asin => mode.ofRadians x.asin
  | acos => mode.ofRadians x.acos
  | atan => mode.ofRadians x.atan
  | ln => x.log
  | log => x.log10
  | sqrt => x.sqrt
  | exp => x.exp
  | abs => x.abs
  | fact => Double.factorial x

end Func
end SciCalc
