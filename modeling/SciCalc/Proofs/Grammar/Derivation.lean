/-
The grammar of expressions, as the type of its derivations:

    sum     ::= product | '-' product | sum ('+' | '-') product
    product ::= power | product ('*' | '/' | '%') power
    power   ::= operand | operand '^' power
    operand ::= number | '(' sum ')' | name '(' sum ')' | operand '!'

where a product that a minus negates does not start with a factorial: `-3!` is not the negative of `3!`.

A derivation has tokens, which are what it derives; a program, which lists its nodes in postorder; and
a value, by recursion on it alone. `exec_postorder` says that running the program gives the value.
-/
import SciCalc.Program.Run
import SciCalc.Token.Basic

namespace SciCalc

/-- What can be derived. Below a sum there are two of each kind: `plain` ones do not start with a
factorial. -/
inductive Nonterminal where
  | sum
  | product (plain : Bool)
  | power (plain : Bool)
  | operand (plain : Bool)
deriving DecidableEq

inductive Derivation : Nonterminal → Type where
  | number {plain : Bool} (x : Float) : Derivation (.operand plain)
  | group {plain : Bool} (inner : Derivation .sum) : Derivation (.operand plain)
  | call {plain : Bool} (f : Func) (argument : Derivation .sum) : Derivation (.operand plain)
  | factorial {plain : Bool} (inner : Derivation (.operand plain)) : Derivation (.operand false)
  | ofOperand {plain : Bool} (inner : Derivation (.operand plain)) : Derivation (.power plain)
  /-- A power. It groups from the right. -/
  | raise {plain : Bool} (base : Derivation (.operand plain)) (exponent : Derivation (.power false)) :
      Derivation (.power plain)
  | ofPower {plain : Bool} (inner : Derivation (.power plain)) : Derivation (.product plain)
  /-- A multiplication, division or remainder. They group from the left. -/
  | multiply {plain : Bool} (left : Derivation (.product plain)) (op : Operator)
      (multiplicative : op = .mul ∨ op = .div ∨ op = .rem) (right : Derivation (.power false)) :
      Derivation (.product plain)
  | ofProduct (inner : Derivation (.product false)) : Derivation .sum
  | negate (inner : Derivation (.product true)) : Derivation .sum
  /-- An addition or subtraction. They group from the left. -/
  | add (left : Derivation .sum) (op : Operator) (additive : op = .add ∨ op = .sub)
      (right : Derivation (.product false)) : Derivation .sum

namespace Derivation

variable {n : Nonterminal}

def tokens : {n : Nonterminal} → Derivation n → List Token
  | _, number x => [.number x]
  | _, group inner => .leftParen :: (inner.tokens ++ [.rightParen])
  | _, call f argument => .identifier f.name :: .leftParen :: (argument.tokens ++ [.rightParen])
  | _, factorial inner => inner.tokens ++ [.factorial]
  | _, ofOperand inner => inner.tokens
  | _, raise base exponent => base.tokens ++ .operator .pow :: exponent.tokens
  | _, ofPower inner => inner.tokens
  | _, multiply left op _ right => left.tokens ++ .operator op :: right.tokens
  | _, ofProduct inner => inner.tokens
  | _, negate inner => .operator .sub :: inner.tokens
  | _, add left op _ right => left.tokens ++ .operator op :: right.tokens

/-- The nodes in postorder. Parentheses have none, and a negative subtracts from zero. -/
def postorder : {n : Nonterminal} → Derivation n → Program
  | _, number x => [.push x]
  | _, group inner => inner.postorder
  | _, call f argument => argument.postorder ++ [.call f]
  | _, factorial inner => inner.postorder ++ [.factorial]
  | _, ofOperand inner => inner.postorder
  | _, raise base exponent => base.postorder ++ exponent.postorder ++ [.operate .pow]
  | _, ofPower inner => inner.postorder
  | _, multiply left op _ right => left.postorder ++ right.postorder ++ [.operate op]
  | _, ofProduct inner => inner.postorder
  | _, negate inner => .push (Double.ofNat 0) :: (inner.postorder ++ [.operate .sub])
  | _, add left op _ right => left.postorder ++ right.postorder ++ [.operate op]

/-- The value, from the values of the parts. -/
def value (mode : AngleMode) : {n : Nonterminal} → Derivation n → Float
  | _, number x => x
  | _, group inner => inner.value mode
  | _, call f argument => f.apply mode (argument.value mode)
  | _, factorial inner => Double.factorial (inner.value mode)
  | _, ofOperand inner => inner.value mode
  | _, raise base exponent => Operator.pow.apply (base.value mode) (exponent.value mode)
  | _, ofPower inner => inner.value mode
  | _, multiply left op _ right => op.apply (left.value mode) (right.value mode)
  | _, ofProduct inner => inner.value mode
  | _, negate inner => Operator.sub.apply (Double.ofNat 0) (inner.value mode)
  | _, add left op _ right => op.apply (left.value mode) (right.value mode)

/-- **The program computes the value**, on top of whatever is on the stack. -/
theorem exec_postorder (mode : AngleMode) (e : Derivation n) (stack : List Float) :
    Program.exec mode e.postorder stack = .ok (e.value mode :: stack) := by
  induction e generalizing stack with
  | number => rfl
  | group _ ih | ofOperand _ ih | ofPower _ ih | ofProduct _ ih => exact ih stack
  | call _ _ ih | factorial _ ih => rw [postorder, Program.exec_append, ih stack]; rfl
  | raise _ _ ihl ihr | multiply _ _ _ _ ihl ihr | add _ _ _ _ ihl ihr =>
    rw [postorder, Program.exec_append, Program.exec_append, ihl stack]
    simp only [Except.bind]
    rw [ihr]
    rfl
  | negate inner ih =>
    have hzero : Program.exec mode (negate inner).postorder stack =
        Program.exec mode (inner.postorder ++ [.operate .sub]) (Double.ofNat 0 :: stack) := rfl
    rw [hzero, Program.exec_append, ih]
    rfl

theorem run_postorder (mode : AngleMode) (e : Derivation n) :
    Program.run mode e.postorder = .ok (e.value mode) := by
  simp only [Program.run, exec_postorder, Program.result]

end Derivation
end SciCalc
