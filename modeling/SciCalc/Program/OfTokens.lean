/-
From tokens to a program. Tokens are read one by one from the left; each adds some instructions to
the program and changes what is waiting. Numbers are added at once. An operator first releases what
binds at least as tightly, and then waits. A closing parenthesis releases its group, and then the
function that the group is the argument of.

A minus where no operand can have ended negates: it is read as a subtraction from an inserted zero,
and it releases what waits just as any minus does, so that `2*-3` is `(2*0)-3`. It gives way to a
factorial sign right after its operand: `-3!` is `(-3)!`.

Operators, commas and factorial signs stand anywhere without an error; whether they find operands is
a question for the run.
-/
import SciCalc.Program.Pending

namespace SciCalc

/-- Why tokens are no program. -/
inductive ParseError where
  /-- A parenthesis is closed that was not opened, or opened and not closed. -/
  | mismatchedParentheses
  /-- A name without an argument. There are no variables. -/
  | unknownIdentifier (name : String)
  /-- A name with an argument that is no function's. -/
  | unknownFunction (name : String)
deriving DecidableEq, Repr

/-- What the user is told about it. -/
def ParseError.message : ParseError → String
  | mismatchedParentheses => "mismatched parentheses"
  | unknownIdentifier name => "unknown identifier: " ++ name
  | unknownFunction name => "unknown function: " ++ name

namespace Program

/-- Whether a minus negates, given the token in front of it: no operand can have ended there. -/
def negatesAfter : Option Token → Bool
  | none | some .leftParen | some (.operator _) | some .comma => true
  | _ => false

/-- Closes the group on top of the stack and, if it is the argument of a function, calls it. -/
def closeGroup : List Pending → Except ParseError (Program × List Pending)
  | .group :: .call f :: stack => .ok ([.call f], stack)
  | .group :: stack => .ok ([], stack)
  | _ => .error .mismatchedParentheses

/-- What one token adds to the program, and what waits after it. The token in front of it tells what a
minus means, the one behind it whether a name is called. -/
def step (previous next : Option Token) (stack : List Pending) :
    Token → Except ParseError (Program × List Pending)
  | .number x => .ok ([.push x], stack)
  | .identifier name =>
    if next = some .leftParen then
      match Func.ofName? name with
      | some f => .ok ([], .call f :: stack)
      | none => .error (.unknownFunction name)
    else .error (.unknownIdentifier name)
  | .leftParen => .ok ([], .group :: stack)
  | .rightParen =>
    let (released, stack) := Pending.release (· ≠ .group) stack
    (closeGroup stack).map fun (call, stack) => (released ++ call, stack)
  | .comma => .ok (Pending.release (· ≠ .group) stack)
  | .factorial =>
    let (released, stack) := Pending.release (· = .negation) stack
    .ok (released ++ [.factorial], stack)
  | .operator op =>
    let (released, stack) := Pending.release (Pending.goesBefore op) stack
    if op = .sub ∧ negatesAfter previous then
      .ok (.push (Double.ofNat 0) :: released, .negation :: stack)
    else .ok (released, .operator op :: stack)

/-- What the entries that still wait at the end add to the program. -/
def finish (stack : List Pending) : Except ParseError Program :=
  if .group ∈ stack then .error .mismatchedParentheses
  else .ok (stack.filterMap Pending.instruction?)

/-- The rest of a program, from the rest of the tokens. -/
def ofTokensFrom (previous : Option Token) (stack : List Pending) :
    List Token → Except ParseError Program
  | [] => finish stack
  | t :: ts =>
    match step previous ts.head? stack t with
    | .ok (added, stack) => (ofTokensFrom (some t) stack ts).map (added ++ ·)
    | .error e => .error e

/-- The program that tokens stand for. -/
def ofTokens (ts : List Token) : Except ParseError Program := ofTokensFrom none [] ts

end Program
end SciCalc
