/-
Quoted texts in TOML. Between double marks a backslash starts an escape; between single marks every
character stands for itself. A text between three marks may go over several lines: a line end right
after the marks is not part of it, and a backslash at the end of a line takes the line end away and
the blanks in front of the next line. One or two marks at its end still belong to it.
-/
import SciCalc.Toml.Blank
import SciCalc.Toml.Integer

namespace SciCalc.Toml

/-- What closes a text at the front of `cs`: the marks that still belong to the text, and what comes
after it. -/
def closing? (mark : Char) (multiline : Bool) (cs : List Char) : Option (List Char × List Char) :=
  let marks := (cs.takeWhile (· = mark)).length
  if multiline then
    if marks < 3 then none
    else
      let belonging := min (marks - 3) 2
      some (List.replicate belonging mark, cs.drop (belonging + 3))
  else if marks = 0 then none
  else some ([], cs.drop 1)

/-- Whether a text may contain the character `c` as it stands, with `next` after it. -/
def allowed (multiline : Bool) (c : Char) (next : List Char) : Bool :=
  !isControl c || (multiline && (c == '\n' || (c == '\r' && next.head? == some '\n')))

/-- The character with a code point, if there is one. -/
def codePoint? (code : Nat) : Option Char := if code.isValidChar then some (Char.ofNat code) else none

/-- Where reading between double marks stands. -/
inductive Reading where
  /-- At a character of the text. Blanks are skipped in front of it if the last line ended in a
  backslash. -/
  | character (skipping : Bool)
  /-- Behind a backslash. -/
  | escape
  /-- At the digits of an escaped code point: how many follow the next one, and what the ones before
  it stand for. -/
  | digit (following code : Nat)

/-- What the character after a backslash stands for, of those that stand for one character. -/
def simpleEscape? : Char → Option Char
  | 'b' => some '\x08'
  | 't' => some '\t'
  | 'n' => some '\n'
  | 'f' => some '\x0c'
  | 'r' => some '\r'
  | 'e' => some '\x1b'
  | '"' => some '"'
  | '\\' => some '\\'
  | _ => none

/-- How many digits in base sixteen follow a letter after a backslash. -/
def escapedDigits? : Char → Option Nat
  | 'x' => some 2
  | 'u' => some 4
  | 'U' => some 8
  | _ => none

/-- The rest of a text between double marks, and what comes after it. -/
def escapedText? (multiline : Bool) (reading : Reading) : List Char → Option (List Char × List Char)
  | [] => none
  | c :: cs =>
    let withChar (c : Char) :=
      (escapedText? multiline (.character false) cs).map fun r => (c :: r.1, r.2)
    match reading with
    | .digit following code =>
      let code := 16 * code + digitValue c
      if !isDigitOf 16 c then none
      else if following = 0 then (codePoint? code).bind withChar
      else escapedText? multiline (.digit (following - 1) code) cs
    | .escape =>
      match simpleEscape? c, escapedDigits? c with
      | some c, _ => withChar c
      | none, some count => escapedText? multiline (.digit (count - 1) 0) cs
      | none, none =>
        if multiline && (afterNewline? (skipSpace (c :: cs))).isSome then
          escapedText? multiline (.character true) cs
        else none
    | .character skipping =>
      if skipping && (isSpace c || (afterNewline? (c :: cs)).isSome) then
        escapedText? multiline (.character true) cs
      else
        match closing? '"' multiline (c :: cs) with
        | some closed => some closed
        | none =>
          if c = '\\' then escapedText? multiline .escape cs
          else if allowed multiline c cs then withChar c
          else none

/-- The rest of a text between single marks, and what comes after it. -/
def literalText? (multiline : Bool) : List Char → Option (List Char × List Char)
  | [] => none
  | c :: cs =>
    match closing? '\'' multiline (c :: cs) with
    | some closed => some closed
    | none =>
      if allowed multiline c cs then (literalText? multiline cs).map fun r => (c :: r.1, r.2) else none

/-- A text between single or double marks on one line, and what comes after it. -/
def lineText? : List Char → Option (String × List Char)
  | '"' :: cs => (escapedText? false (.character false) cs).map fun r => (String.ofList r.1, r.2)
  | '\'' :: cs => (literalText? false cs).map fun r => (String.ofList r.1, r.2)
  | _ => none

/-- A text without the line end it starts with. -/
def dropNewline (cs : List Char) : List Char := (afterNewline? cs).getD cs

/-- A quoted text of either kind, and what comes after it. -/
def quotedText? : List Char → Option (String × List Char)
  | '"' :: '"' :: '"' :: cs =>
    (escapedText? true (.character false) (dropNewline cs)).map fun r => (String.ofList r.1, r.2)
  | '\'' :: '\'' :: '\'' :: cs =>
    (literalText? true (dropNewline cs)).map fun r => (String.ofList r.1, r.2)
  | cs => lineText? cs

end SciCalc.Toml
