/-
What separates the parts of a TOML text: spaces and tabs within a line, line ends, and comments. A
line ends at a line feed, with or without a carriage return in front of it.
-/
namespace SciCalc.Toml

/-- Whether a character is a space or a tab. -/
def isSpace (c : Char) : Bool := c == ' ' || c == '\t'

/-- Whether a character is a control other than the tab. Comments and texts on one line have none. -/
def isControl (c : Char) : Bool := (c.toNat < 0x20 && c != '\t') || c.toNat == 0x7f

/-- A text without the spaces it starts with. -/
def skipSpace (cs : List Char) : List Char := cs.dropWhile isSpace

/-- The text after a line end. -/
def afterNewline? : List Char → Option (List Char)
  | '\n' :: cs => some cs
  | '\r' :: '\n' :: cs => some cs
  | _ => none

/-- The next line, if only spaces and a comment are left of this one. -/
def nextLine? (cs : List Char) : Option (List Char) :=
  let cs := skipSpace cs
  let cs := if cs.head? = some '#' then cs.dropWhile fun c => !isControl c else cs
  if cs = [] then some [] else afterNewline? cs

/-- A text without the spaces, line ends and comments it starts with, or, if `inComment` is set, without
the rest of a comment in front of these. It stops at a control that a comment cannot have. -/
def skipLines (inComment : Bool) : List Char → List Char
  | [] => []
  | c :: cs =>
    if c = '\n' ∨ (c = '\r' ∧ cs.head? = some '\n') then skipLines false cs
    else if inComment && !isControl c then skipLines true cs
    else if isSpace c then skipLines false cs
    else if c = '#' then skipLines true cs
    else c :: cs

end SciCalc.Toml
