/-
Running a program. A step that finds too few numbers on the stack ends the run with an error, and so
does an end with anything but one number left. What the numbers are never matters for that: an
operation or function always has a value.
-/
import SciCalc.Program.Basic

namespace SciCalc

/-- Why a program has no value. -/
inductive RunError where
  /-- An operator or a factorial sign finds too few numbers. -/
  | missingOperand
  /-- A function finds no number. -/
  | missingArgument (f : Func)
  /-- The program leaves no number, or more than one. -/
  | notOneValue
deriving DecidableEq, Repr

/-- What the user is told about it. -/
def RunError.message : RunError → String
  | missingOperand => "missing operand"
  | missingArgument f => "missing argument for " ++ f.name
  | notOneValue => "invalid expression"

/-- The stack after one step. Its top is the head of the list. -/
def Instruction.step (mode : AngleMode) : Instruction → List Float → Except RunError (List Float)
  | push x, stack => .ok (x :: stack)
  | operate op, b :: a :: stack => .ok (op.apply a b :: stack)
  | operate _, _ => .error .missingOperand
  | call f, x :: stack => .ok (f.apply mode x :: stack)
  | call f, [] => .error (.missingArgument f)
  | factorial, x :: stack => .ok (Double.factorial x :: stack)
  | factorial, [] => .error .missingOperand

namespace Program

/-- The stack after a program that starts on a given stack. -/
def exec (mode : AngleMode) : Program → List Float → Except RunError (List Float)
  | [], stack => .ok stack
  | i :: p, stack =>
    match i.step mode stack with
    | .ok stack => exec mode p stack
    | .error e => .error e

/-- The value that a stack stands for: it must be its only number. -/
def result : List Float → Except RunError Float
  | [x] => .ok x
  | _ => .error .notOneValue

/-- The value of a program. -/
def run (mode : AngleMode) (p : Program) : Except RunError Float :=
  match exec mode p [] with
  | .ok stack => result stack
  | .error e => .error e

theorem exec_append (mode : AngleMode) (p q : Program) (stack : List Float) :
    exec mode (p ++ q) stack = (exec mode p stack).bind (exec mode q) := by
  induction p generalizing stack with
  | nil => rfl
  | cons i p ih =>
    simp only [List.cons_append, exec]
    cases i.step mode stack with
    | ok stack => exact ih stack
    | error e => rfl

end Program
end SciCalc
