/-
What waits while an expression is read: operators whose right operand is not complete, functions
whose argument is being read, and groups that are open. The most recent entry is the head of the
list.
-/
import SciCalc.Program.Basic
import SciCalc.Token.Basic

namespace SciCalc

/-- An entry that waits. -/
inductive Pending where
  | operator (op : Operator)
  /-- A minus that negates what follows it. It subtracts from a zero that is already in the program. -/
  | negation
  /-- A function whose argument follows. -/
  | call (f : Func)
  /-- An open parenthesis. -/
  | group
deriving DecidableEq

namespace Pending

/-- How tightly an entry binds the operand in front of it; functions and groups bind none. -/
def precedence? : Pending → Option Nat
  | operator op => some op.precedence
  | negation => some Operator.sub.precedence
  | call _ => none
  | group => none

/-- What an entry adds to the program when its turn comes. A parenthesis adds nothing. -/
def instruction? : Pending → Option Instruction
  | operator op => some (.operate op)
  | negation => some (.operate .sub)
  | call f => some (.call f)
  | group => none

/-- Whether an entry takes its operands before an operator that follows it. -/
def goesBefore (op : Operator) (p : Pending) : Bool :=
  p.precedence?.any fun precedence =>
    if op.groupsRight then op.precedence < precedence else op.precedence ≤ precedence

/-- Takes the entries on top that meet a condition off the stack, and what they add to the program. -/
def release (condition : Pending → Bool) (stack : List Pending) : Program × List Pending :=
  ((stack.takeWhile condition).filterMap instruction?, stack.dropWhile condition)

end Pending
end SciCalc
