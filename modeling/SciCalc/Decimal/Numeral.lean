/-
Numbers as they are typed: digits with at most one point among or before them, and perhaps a power
of ten after an `e`. A numeral is taken from the front of a text as long as it can be: a point that
no digit follows, and an `e` that no digits follow, are left for what comes next.
-/
import SciCalc.Decimal.Basic

namespace SciCalc

/-- A power of ten as it is typed after the `e`. -/
structure Numeral.Exponent where
  /-- The sign, if one is typed. -/
  sign : Option Char
  digits : List Char
deriving DecidableEq, Repr

/-- A number as it is typed. -/
structure Numeral where
  /-- The digits before the point, if there are any. -/
  whole : List Char
  /-- The digits after the point; without a point there are none. -/
  fraction : List Char
  exponent : Option Numeral.Exponent
deriving DecidableEq, Repr

namespace Numeral

/-- The text of a power of ten, with its `e`. -/
def Exponent.text (e : Exponent) : List Char := 'e' :: (e.sign.toList ++ e.digits)

/-- The power of ten. -/
def Exponent.value (e : Exponent) : Int :=
  if e.sign = some '-' then -(Decimal.natOfText e.digits : Int) else Decimal.natOfText e.digits

/-- The text of a numeral. -/
def text (n : Numeral) : List Char :=
  n.whole ++ (if n.fraction = [] then [] else '.' :: n.fraction) ++ (n.exponent.elim [] Exponent.text)

/-- The number a numeral stands for, exactly. -/
def toDecimal (n : Numeral) : Decimal where
  digits := Decimal.natOfText (n.whole ++ n.fraction)
  exponent := n.exponent.elim 0 Exponent.value - n.fraction.length

/-- The double nearest to the number a numeral stands for. -/
def toDouble (n : Numeral) : Float := n.toDecimal.toDouble

/-- The longest run of digits at the front of a text, and the text after it. -/
def splitDigits (cs : List Char) : List Char × List Char :=
  (cs.takeWhile Char.isDigit, cs.dropWhile Char.isDigit)

/-- The sign at the front of a text, if there is one, and the text after it. -/
def splitSign : List Char → Option Char × List Char
  | '+' :: cs => (some '+', cs)
  | '-' :: cs => (some '-', cs)
  | cs => (none, cs)

/-- The power of ten at the front of a text, if there is one, and the text after it. -/
def splitExponent : List Char → Option Exponent × List Char
  | 'e' :: cs =>
    let (sign, afterSign) := splitSign cs
    let (digits, rest) := splitDigits afterSign
    if digits = [] then (none, 'e' :: cs) else (some ⟨sign, digits⟩, rest)
  | cs => (none, cs)

/-- The point and the digits after it at the front of a text, and the text after them. -/
def splitFraction : List Char → List Char × List Char
  | '.' :: cs =>
    let (digits, rest) := splitDigits cs
    if digits = [] then ([], '.' :: cs) else (digits, rest)
  | cs => ([], cs)

/-- The longest numeral at the front of a text, and the text after it. -/
def split? (cs : List Char) : Option (Numeral × List Char) :=
  let (whole, afterWhole) := splitDigits cs
  let (fraction, afterFraction) := splitFraction afterWhole
  if whole = [] ∧ fraction = [] then none
  else
    let (exponent, rest) := splitExponent afterFraction
    some (⟨whole, fraction, exponent⟩, rest)

/-! ## Nothing is lost -/

theorem splitDigits_append (cs : List Char) : (splitDigits cs).1 ++ (splitDigits cs).2 = cs := by
  simp [splitDigits]

theorem splitSign_append (cs : List Char) : (splitSign cs).1.toList ++ (splitSign cs).2 = cs := by
  unfold splitSign
  split <;> rfl

theorem splitExponent_append (cs : List Char) :
    (splitExponent cs).1.elim [] Exponent.text ++ (splitExponent cs).2 = cs := by
  unfold splitExponent
  split
  · next cs =>
    by_cases h : (splitDigits (splitSign cs).2).1 = []
    · simp [h]
    · simp [h, Exponent.text, splitDigits_append, splitSign_append]
  · simp

theorem splitFraction_append (cs : List Char) :
    (if (splitFraction cs).1 = [] then [] else '.' :: (splitFraction cs).1) ++ (splitFraction cs).2 =
      cs := by
  unfold splitFraction
  split
  · next cs =>
    by_cases h : (splitDigits cs).1 = []
    · simp [h]
    · simp [h, splitDigits_append]
  · simp

/-- A numeral's text and the text after it are the text it is taken from. -/
theorem text_append_of_split? {cs rest : List Char} {n : Numeral} (h : split? cs = some (n, rest)) :
    n.text ++ rest = cs := by
  unfold split? at h
  simp only at h
  split at h
  · cases h
  · simp only [Option.some.injEq, Prod.mk.injEq] at h
    obtain ⟨rfl, rfl⟩ := h
    simp only [text, List.append_assoc, splitExponent_append, splitFraction_append, splitDigits_append]

/-- A numeral has text. -/
theorem text_ne_nil_of_split? {cs rest : List Char} {n : Numeral} (h : split? cs = some (n, rest)) :
    n.text ≠ [] := by
  unfold split? at h
  simp only at h
  split at h
  · cases h
  · next hne =>
    simp only [Option.some.injEq, Prod.mk.injEq] at h
    obtain ⟨rfl, -⟩ := h
    intro ht
    simp only [text, List.append_eq_nil_iff] at ht
    obtain ⟨⟨hw, hf⟩, -⟩ := ht
    split at hf
    · next hnil => exact hne ⟨hw, hnil⟩
    · cases hf

end Numeral
end SciCalc
