/-
The six binary operators: how each is written, how tightly it binds, on which side it groups, and
what it computes. Edge cases of arithmetic are values and never errors: dividing by zero gives an
infinity or what is no number.
-/
import SciCalc.Double.Remainder

namespace SciCalc

/-- A binary operator. -/
inductive Operator where
  | add | sub | mul | div | rem | pow
deriving DecidableEq, Repr

namespace Operator

/-- The character an operator is written with. -/
def symbol : Operator → Char
  | add => '+' | sub => '-' | mul => '*' | div => '/' | rem => '%' | pow => '^'

/-- The operator that a character stands for. -/
def ofSymbol? : Char → Option Operator
  | '+' => some add | '-' => some sub | '*' => some mul
  | '/' => some div | '%' => some rem | '^' => some pow
  | _ => none

@[simp] theorem ofSymbol?_symbol (op : Operator) : ofSymbol? op.symbol = some op := by
  cases op <;> rfl

/-- How tightly an operator binds; the higher one takes its operands first. -/
def precedence : Operator → Nat
  | add | sub => 2
  | mul | div | rem => 3
  | pow => 4

/-- Only powers group from the right: `2^3^2` is `2^(3^2)`. -/
def groupsRight : Operator → Bool
  | pow => true
  | _ => false

/-- The value of an operation on doubles, rounded to nearest; `%` is exact and keeps the sign of its
left operand. -/
def apply : Operator → Float → Float → Float
  | add, a, b => a + b
  | sub, a, b => a - b
  | mul, a, b => a * b
  | div, a, b => a / b
  | rem, a, b => Double.remainder a b
  | pow, a, b => a.pow b

end Operator
end SciCalc
