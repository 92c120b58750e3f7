/-
Binary64 numbers, taken apart and put together exactly.

A finite double is a whole number of units of `2^-1074`, with a sign; `classify` reads that number
off the bits. The other way, `ofQuotient` gives the double nearest to a quotient of naturals, a tie
going to the even significand. Nothing here computes with doubles: all arithmetic is on naturals.
-/
import SciCalc.Rounding

namespace SciCalc.Double

/-- How many units of `2^-1074` make one. -/
def unitsPerOne : Nat := Nat.pow 2 1074

/-- The bits of positive infinity. The bits of the positive doubles below count up in order of value. -/
def infinityBits : Nat := 0x7ff * Nat.pow 2 52

/-- The bit that makes a double negative. -/
def signBit : Nat := Nat.pow 2 63

/-- What a double stands for. -/
inductive Kind where
  | notANumber
  | infinite (negative : Bool)
  /-- A number of units of `2^-1074`. Zero has both signs. -/
  | finite (negative : Bool) (units : Nat)
deriving DecidableEq, Repr

/-- The units that the bits of a finite double without its sign stand for. -/
def unitsOfBits (bits : Nat) : Nat :=
  let field := bits / Nat.pow 2 52
  let fraction := bits % Nat.pow 2 52
  if field = 0 then fraction else (Nat.pow 2 52 + fraction) * Nat.pow 2 (field - 1)

/-- What a double stands for, read off its bits. -/
def classify (x : Float) : Kind :=
  let bits := x.toBits.toNat
  let negative := decide (signBit ≤ bits)
  let magnitude := bits % signBit
  if magnitude < infinityBits then .finite negative (unitsOfBits magnitude)
  else if magnitude = infinityBits then .infinite negative
  else .notANumber

/-- The bits of the double nearest to `num / den`; infinity from half a unit in the last place above
the greatest finite double. With `shift` chosen so that the significand has 53 bits, or fewer at the
bottom of the range, counting `2^52` for each step of it puts the exponent where it belongs, also
when rounding carries into it. -/
def nearestBits (num den : Nat) : Nat :=
  let units := num * unitsPerOne
  let shift := (units / den).log2 - 52
  min (shift * Nat.pow 2 52 + roundDiv units (den * Nat.pow 2 shift)) infinityBits

/-- The double nearest to `num / den`, with the sign asked for. -/
def ofQuotient (negative : Bool) (num den : Nat) : Float :=
  .ofBits (.ofNat (nearestBits num den + if negative then signBit else 0))

/-- The double nearest to a natural. -/
def ofNat (n : Nat) : Float := ofQuotient false n 1

/-- The double of so many units, where there is one. -/
def ofUnits (negative : Bool) (units : Nat) : Float := ofQuotient negative units unitsPerOne

/-- The value that is no number. -/
def nan : Float := .ofBits 0x7ff8000000000000

/-- Positive infinity. -/
def infinity : Float := .ofBits 0x7ff0000000000000

/-- Pi, as near as a double comes to it. -/
def pi : Float := .ofBits 0x400921fb54442d18

end SciCalc.Double
