/-
Integers in TOML: decimal with an optional sign and no superfluous zero in front, or in base two,
eight or sixteen without a sign. One mark `_` may stand between two digits. They may be of any size;
how great a setting may be is for the setting to say.
-/
namespace SciCalc.Toml

/-- The value of a letter or digit as a digit. -/
def digitValue (c : Char) : Nat :=
  if c.isDigit then c.toNat - '0'.toNat else c.toLower.toNat - 'a'.toNat + 10

/-- Whether a character is a digit in a base. -/
def isDigitOf (base : Nat) (c : Char) : Bool := c.isAlphanum && digitValue c < base

/-- The number that digits stand for. -/
def ofDigits (base : Nat) (digits : List Char) : Nat :=
  digits.foldl (fun n c => base * n + digitValue c) 0

/-- The digits of a number without the marks between them. There is at least one digit. -/
def digits? (base : Nat) : List Char → Option (List Char)
  | [] => none
  | c :: cs =>
    if isDigitOf base c then
      match cs with
      | [] => some [c]
      | '_' :: cs => (digits? base cs).map (c :: ·)
      | cs => (digits? base cs).map (c :: ·)
    else none

/-- The number that a text in a base stands for. -/
def natural? (base : Nat) (cs : List Char) : Option Nat := (digits? base cs).map (ofDigits base)

/-- The number that a decimal text without a sign stands for. -/
def decimal? (cs : List Char) : Option Nat :=
  if cs.head? = some '0' ∧ cs ≠ ['0'] then none else natural? 10 cs

/-- The integer that a text stands for. -/
def integer? : List Char → Option Int
  | '0' :: 'x' :: cs => (natural? 16 cs).map Int.ofNat
  | '0' :: 'o' :: cs => (natural? 8 cs).map Int.ofNat
  | '0' :: 'b' :: cs => (natural? 2 cs).map Int.ofNat
  | '-' :: cs => (decimal? cs).map fun n => -Int.ofNat n
  | '+' :: cs => (decimal? cs).map Int.ofNat
  | cs => (decimal? cs).map Int.ofNat

end SciCalc.Toml
