/-
The shortest decimal that tells a double apart: of the decimals that read back to it those with the
fewest digits, and of these the one nearest to it.

For each number of digits only the two decimals next to the double's value can read back, if any of
that length does, since what reads back is an interval around the value. So the two are tried, the
nearer one first, for one digit, for two, and so on up to seventeen. Behind these stands the double's
exact value, which has many digits and always reads back.
-/
import SciCalc.Decimal.Basic

namespace SciCalc.Decimal

/-- Which of two decimals is taken that are equally near to a double. -/
inductive Tie where
  /-- The one with the even last digit. -/
  | even
  /-- The greater one. -/
  | up
deriving DecidableEq, Repr

/-- How many digits a natural has; zero has none. -/
def digitCount (n : Nat) : Nat := if n = 0 then 0 else (natText n).length

/-- The least power of ten above `units` units of `2^-1074`, for a positive number of them. -/
def ceilingPower (units : Nat) : Int :=
  if Double.unitsPerOne ≤ units then digitCount (units / Double.unitsPerOne)
  else 1 - digitCount ((Double.unitsPerOne - 1) / units)

/-- The two neighbours of `num / den` among the multiples of `10 ^ exponent`, the nearer one first. -/
def neighbours (tie : Tie) (num den : Nat) (exponent : Int) : List Decimal :=
  let scaledNum := num * Nat.pow 10 (-exponent).toNat
  let scaledDen := den * Nat.pow 10 exponent.toNat
  let below := scaledNum / scaledDen
  let rest := scaledNum % scaledDen
  let upFirst :=
    if 2 * rest = scaledDen then tie = .up ∨ below % 2 = 1 else scaledDen < 2 * rest
  if upFirst then [⟨below + 1, exponent⟩, ⟨below, exponent⟩]
  else [⟨below, exponent⟩, ⟨below + 1, exponent⟩]

/-- The first of the two neighbours with so many digits that reads back, if one does. -/
def withDigits? (tie : Tie) (units : Nat) (count : Nat) : Option Decimal :=
  (neighbours tie units Double.unitsPerOne (ceilingPower units - count)).find? fun d =>
    d.toDouble = Double.ofUnits false units

/-- The exact value of a number of units, which are multiples of `2^-1074` and so of `10^-1074`. -/
def exact (units : Nat) : Decimal := ⟨units * Nat.pow 5 1074, -1074⟩

/-- The shortest decimal that reads back to the double of so many units. -/
def shortest (tie : Tie) (units : Nat) : Decimal :=
  if units = 0 then ⟨0, 0⟩
  else ((List.range 17).findSome? fun n => withDigits? tie units (n + 1)).getD (exact units)

end SciCalc.Decimal
