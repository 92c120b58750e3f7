/-
What the keypad types. Its keys show typographic signs, which are read as the plain ones; and its key
for pi types the word `pi`, which stands for digits: each occurrence is replaced in the text itself,
so that `2pi` is a longer number and no name can contain those two letters.
-/
namespace SciCalc.Keypad

/-- The signs on the keys, with the plain sign each is read as: times, divided by, and five dashes. -/
def glyphs : List (Char × Char) :=
  [('\u00d7', '*'), ('\u00f7', '/'), ('\u2212', '-'), ('\u2013', '-'), ('\u2012', '-'), ('\ufe63', '-'),
   ('\uff0d', '-')]

/-- The plain sign for a sign on a key; any other character stands for itself. -/
def plain (c : Char) : Char := (glyphs.lookup c).getD c

/-- The digits of pi, as many as tell its double apart. -/
def piDigits : List Char := "3.141592653589793".toList

/-- A text with the digits in place of each `pi`. -/
def expandPi : List Char → List Char
  | 'p' :: 'i' :: cs => piDigits ++ expandPi cs
  | c :: cs => c :: expandPi cs
  | [] => []

/-- A typed text as the calculator reads it. -/
def normalize (cs : List Char) : List Char := expandPi (cs.map plain)

/-- `normalize`, on strings. -/
def normalizeText (text : String) : String := String.ofList (normalize text.toList)

end SciCalc.Keypad
