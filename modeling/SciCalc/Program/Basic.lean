/-
Programs for a stack of numbers: the form in which an expression is computed. A program has no
parentheses and no precedence; its order alone says what is computed from what.
-/
import SciCalc.Func
import SciCalc.Operator

namespace SciCalc

/-- One step of a program. -/
inductive Instruction where
  /-- Puts a number on the stack. -/
  | push (value : Float)
  /-- Replaces the two numbers on top by the value of an operation. The upper one is on its right. -/
  | operate (op : Operator)
  /-- Replaces the number on top by the value of a function there. -/
  | call (f : Func)
  /-- Replaces the number on top by its factorial. -/
  | factorial
deriving DecidableEq

/-- A program, in the order in which it runs. -/
abbrev Program := List Instruction

end SciCalc
