/-
Decimal numbers: a natural times a power of ten. They stand between a double and its written form,
in both directions.
-/
import SciCalc.Double.Basic

namespace SciCalc

/-- The number `digits * 10 ^ exponent`. -/
structure Decimal where
  digits : Nat
  exponent : Int
deriving DecidableEq, Repr

namespace Decimal

/-- The double nearest to a decimal. Exponents far beyond the range of doubles are told apart first,
so that no power is computed that would not fit in memory: above `10^400` all is infinite, and what
is below `10^-400` is nothing. -/
def toDouble (d : Decimal) : Float :=
  if d.digits = 0 then Double.ofNat 0
  else if 400 < d.exponent then Double.infinity
  else if d.exponent + (d.digits.log2 + 1) < -400 then Double.ofNat 0
  else Double.ofQuotient false (d.digits * Nat.pow 10 d.exponent.toNat) (Nat.pow 10 (-d.exponent).toNat)

/-- The digits of a natural, in base ten. -/
def natText (n : Nat) : List Char := Nat.toDigits 10 n

/-- The natural that digits in base ten stand for. -/
def natOfText (digits : List Char) : Nat := Nat.ofDigitChars 10 digits 0

@[simp] theorem natOfText_natText (n : Nat) : natOfText (natText n) = n :=
  Nat.ofDigitChars_ten_toDigits

end Decimal
end SciCalc
