/-
How a decimal is written: with all its digits in their places, or with one digit before the point and
a power of ten after an `e`. Which of the two is taken, and a few decisions more, make up a style.
-/
import SciCalc.Decimal.Shortest

namespace SciCalc.Decimal

/-- The decisions of a written form of doubles. -/
structure Style where
  /-- Which of two equally short and near decimals is written. -/
  tie : Tie
  /-- Whether a number is written without a power of ten, given the power of its first digit. -/
  positional : Int → Bool
  /-- What follows the digits of a whole number. -/
  wholeTail : List Char

/-- Numbers as they are shown and typed again: never with a power of ten, and a whole number without a
point. -/
def Style.plain : Style := ⟨.up, fun _ => true, []⟩

/-- Numbers as data: always with a point or a power of ten, and positional from `10^-5` up to below
`10^16`. -/
def Style.data : Style := ⟨.even, fun e => -5 ≤ e ∧ e < 16, ['.', '0']⟩

/-- The digits of a natural without the zeros at the end, and how many zeros there are. -/
def significant (n : Nat) : List Char × Nat :=
  let reversed := (natText n).reverse
  ((reversed.dropWhile (· = '0')).reverse, (reversed.takeWhile (· = '0')).length)

/-- So many zeros. -/
def zeros (n : Nat) : List Char := List.replicate n '0'

/-- Digits with the point after the first `point` of them, zeros filling up on either side. -/
def positionalText (wholeTail digits : List Char) (point : Int) : List Char :=
  if point ≤ 0 then '0' :: '.' :: (zeros (-point).toNat ++ digits)
  else if point < digits.length then digits.take point.toNat ++ '.' :: digits.drop point.toNat
  else digits ++ zeros (point - digits.length).toNat ++ wholeTail

/-- Digits with the point after the first one, and a power of ten with its sign. -/
def scientificText (digits : List Char) (power : Int) : List Char :=
  let fraction := digits.drop 1
  digits.take 1 ++ (if fraction = [] then [] else '.' :: fraction) ++
    'e' :: (if power < 0 then '-' else '+') :: natText power.natAbs

/-- The text of a decimal. -/
def Style.text (style : Style) (d : Decimal) : List Char :=
  if d.digits = 0 then '0' :: style.wholeTail
  else
    let (digits, stripped) := significant d.digits
    let point := digits.length + stripped + d.exponent
    if style.positional (point - 1) then positionalText style.wholeTail digits point
    else scientificText digits (point - 1)

/-- The text of a double of so many units, with its sign. -/
def Style.signedText (style : Style) (negative : Bool) (units : Nat) : List Char :=
  (if negative then ['-'] else []) ++ style.text (shortest style.tie units)

/-- The text of a double in which nothing is rounded away. -/
def plainText (x : Float) : List Char :=
  match Double.classify x with
  | .notANumber => "NaN".toList
  | .infinite negative => (if negative then ['-'] else []) ++ "inf".toList
  | .finite negative units => Style.plain.signedText negative units

/-- The text of a double as data, for which only finite numbers have one. -/
def dataText? (x : Float) : Option (List Char) :=
  match Double.classify x with
  | .finite negative units => some (Style.data.signedText negative units)
  | _ => none

end SciCalc.Decimal
