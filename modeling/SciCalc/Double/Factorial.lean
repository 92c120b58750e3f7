/-
The factorial of a double: the product of the whole numbers from 1 up to it, multiplied from the
left and rounded at each step. Negative numbers have none; between two whole numbers the lower one
counts; a product that has become infinite is not multiplied any further, so that the greatest
argument takes no more steps than the first that overflows.
-/
import SciCalc.Double.Basic

namespace SciCalc.Double

/-- How many whole numbers from 1 up are at most `x`. For infinity it is how many are at most
`2^1024`, which is above every finite double. -/
def factorCount (x : Float) : Nat :=
  match classify x with
  | .finite false units => units / unitsPerOne
  | .infinite false => Nat.pow 2 1024
  | _ => 0

/-- The products that arise from `product` by the factors `factor`, `factor + 1` and so on, `count` of
them, up to the first that is infinite. -/
def risingProducts (product : Float) (factor : Nat) : (count : Nat) → List Float
  | 0 => []
  | count + 1 =>
    let next := product * ofNat factor
    if next.isInf then [next] else next :: risingProducts next (factor + 1) count

/-- The factorial. What is no number has no factors, and so the empty product. -/
def factorial (x : Float) : Float :=
  if x < ofNat 0 then nan else (risingProducts (ofNat 1) 1 (factorCount x)).getLast?.getD (ofNat 1)

end SciCalc.Double
