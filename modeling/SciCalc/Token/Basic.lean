/-
The tokens of an expression: numbers, names, operators, parentheses, commas and the factorial sign.
-/
import SciCalc.Operator

namespace SciCalc

/-- A token. -/
inductive Token where
  | number (value : Float)
  | identifier (name : String)
  | operator (op : Operator)
  | leftParen
  | rightParen
  | comma
  | factorial
deriving DecidableEq

namespace Token

/-- The token that a single character stands for. -/
def ofSymbol? : Char → Option Token
  | '(' => some leftParen
  | ')' => some rightParen
  | ',' => some comma
  | '!' => some factorial
  | c => (Operator.ofSymbol? c).map operator

end Token
end SciCalc
