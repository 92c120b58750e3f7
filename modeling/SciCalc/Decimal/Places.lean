/-
Results as they are copied and displayed: rounded to ten decimal places, with no zeros at the end,
and for the display with a comma before every third digit of the whole part.
-/
import SciCalc.Decimal.Basic

namespace SciCalc.Decimal

/-- The number of places that results are rounded to. -/
def places : Nat := 10

/-- The minus sign of a negative number. -/
def signText (negative : Bool) : List Char := if negative then ['-'] else []

/-- Digits with zeros in front, up to a width. -/
def padded (width : Nat) (digits : List Char) : List Char :=
  List.replicate (width - digits.length) '0' ++ digits

/-- The text of a number of units rounded to ten places, all of them written. A tie goes to the even
last digit. -/
def roundedText (units : Nat) : List Char :=
  let rounded := roundDiv (units * Nat.pow 10 places) Double.unitsPerOne
  natText (rounded / Nat.pow 10 places) ++ '.' :: padded places (natText (rounded % Nat.pow 10 places))

/-- A text without the characters `c` that it ends in. -/
def dropLast (c : Char) (cs : List Char) : List Char := (cs.reverse.dropWhile (· = c)).reverse

/-- The text of a finite result. A whole number below `10^15` is written out as it is; any other is
rounded to ten places, and the zeros at the end are dropped, and the point if nothing is behind it.
Zero has no sign. -/
def finiteText (negative : Bool) (units : Nat) : List Char :=
  if units % Double.unitsPerOne = 0 ∧ units < Nat.pow 10 15 * Double.unitsPerOne then
    signText (negative && units != 0) ++ natText (units / Double.unitsPerOne)
  else
    let text := signText negative ++ dropLast '.' (dropLast '0' (roundedText units))
    if text = ['-', '0'] then ['0'] else text

/-- The text of a result as it is copied. -/
def clipboardText (x : Float) : List Char :=
  match Double.classify x with
  | .notANumber => "NaN".toList
  | .infinite negative => signText negative ++ "Infinity".toList
  | .finite negative units => finiteText negative units

/-- Digits with a comma before every third one, counted from the end. -/
def grouped : List Char → List Char
  | [] => []
  | d :: ds => if ds.length % 3 = 0 ∧ ds ≠ [] then d :: ',' :: grouped ds else d :: grouped ds

/-- A number's text with its whole part grouped; the sign, the point and what follows stay as they
are. -/
def groupedText : List Char → List Char
  | '-' :: cs => '-' :: (grouped (cs.takeWhile (· ≠ '.')) ++ cs.dropWhile (· ≠ '.'))
  | cs => grouped (cs.takeWhile (· ≠ '.')) ++ cs.dropWhile (· ≠ '.')

/-- The text of a result as it is displayed. -/
def displayText (x : Float) : List Char :=
  match Double.classify x with
  | .finite negative units => groupedText (finiteText negative units)
  | _ => clipboardText x

end SciCalc.Decimal
