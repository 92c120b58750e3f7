/-
Text between quotation marks. The quotation mark, the backslash and the controls below U+0020 are
escaped, so that a quoted text ends where it seems to end and keeps to one line; every other character
stands for itself.
-/
namespace SciCalc.Json

/-- How a character is written between quotation marks. Five controls have a short escape; the others
are written with four digits in base sixteen. -/
def escape (c : Char) : List Char :=
  match c with
  | '"' => ['\\', '"']
  | '\\' => ['\\', '\\']
  | '\x08' => ['\\', 'b']
  | '\t' => ['\\', 't']
  | '\n' => ['\\', 'n']
  | '\x0c' => ['\\', 'f']
  | '\r' => ['\\', 'r']
  | c =>
    if c.toNat < 0x20 then
      ['\\', 'u', '0', '0', Nat.digitChar (c.toNat / 16), Nat.digitChar (c.toNat % 16)]
    else [c]

/-- A text between quotation marks. -/
def quoted (cs : List Char) : List Char := '"' :: (cs.flatMap escape ++ ['"'])

end SciCalc.Json
