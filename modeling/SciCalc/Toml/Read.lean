/-
Reading a TOML text: from characters to statements. Every step takes at least one character, so as
many steps as there are characters are enough.
-/
import SciCalc.Toml.Basic
import SciCalc.Toml.Quoted

namespace SciCalc.Toml

/-- Whether a character may stand in a name without marks. -/
def isBare (c : Char) : Bool := c.isAlphanum || c == '_' || c == '-'

/-- A name, and what comes after it. -/
def name? (cs : List Char) : Option (String × List Char) :=
  match cs.takeWhile isBare with
  | [] => lineText? cs
  | name => some (String.ofList name, cs.dropWhile isBare)

/-- A key, and what comes after it and the spaces behind it. -/
def key? : Nat → List Char → Option (Key × List Char)
  | 0, _ => none
  | steps + 1, cs => do
    let (name, cs) ← name? cs
    match skipSpace cs with
    | '.' :: cs =>
      let (key, cs) ← key? steps (skipSpace cs)
      some (name :: key, cs)
    | cs => some ([name], cs)

/-- Whether a character may stand in a value without marks. -/
def isScalar (c : Char) : Bool := isBare c || c == '+' || c == '.' || c == ':'

/-- The value that a word without marks stands for. -/
def scalar? (word : List Char) : Option Value :=
  if word = "true".toList then some (.boolean true)
  else if word = "false".toList then some (.boolean false)
  else (integer? word).map .integer

/-- A value that has no parts, and what comes after it. -/
def plainValue? (cs : List Char) : Option (Value × List Char) :=
  match cs.takeWhile isScalar with
  | [] => (quotedText? cs).map fun r => (.text r.1, r.2)
  | word => (scalar? word).map fun value => (value, cs.dropWhile isScalar)

mutual

/-- A value, and what comes after it. -/
def value? : Nat → List Char → Option (Value × List Char)
  | 0, _ => none
  | _, '[' :: cs =>
    match skipLines false cs with
    | ']' :: cs => some (.emptyArray, cs)
    | _ => none
  | steps + 1, '\x7b' :: cs => (fields? steps (skipLines false cs)).map fun r => (.table r.1, r.2)
  | _, cs => plainValue? cs

/-- The rest of the fields of a table between braces, and what comes after the table. Lines may end
anywhere but inside a key, and a comma may follow the last field. -/
def fields? : Nat → List Char → Option (List (Key × Value) × List Char)
  | 0, _ => none
  | _, '\x7d' :: cs => some ([], cs)
  | steps + 1, cs => do
    let (key, cs) ← key? steps cs
    let '=' :: cs := skipLines false cs | none
    let (value, cs) ← value? steps (skipLines false cs)
    match skipLines false cs with
    | '\x7d' :: cs => some ([(key, value)], cs)
    | ',' :: cs =>
      let (fields, cs) ← fields? steps (skipLines false cs)
      some ((key, value) :: fields, cs)
    | _ => none

end

/-- A statement, and what comes after it. -/
def statement? (steps : Nat) : List Char → Option (Statement × List Char)
  | '[' :: cs => do
    let (key, cs) ← key? steps (skipSpace cs)
    let ']' :: cs := cs | none
    some (.header key, cs)
  | cs => do
    let (key, cs) ← key? steps cs
    let '=' :: cs := cs | none
    let (value, cs) ← value? steps (skipSpace cs)
    some (.assignment key value, cs)

/-- The statements of a text, one a line. -/
def statements? : Nat → List Char → Option (List Statement)
  | 0, _ => none
  | steps + 1, cs =>
    match skipLines false cs with
    | [] => some []
    | cs => do
      let (statement, cs) ← statement? steps cs
      let cs ← nextLine? cs
      let statements ← statements? steps cs
      some (statement :: statements)

/-- A text without the mark of its encoding. -/
def dropByteOrderMark (cs : List Char) : List Char :=
  if cs.head? = some '\ufeff' then cs.drop 1 else cs

/-- The statements of a TOML text, if it is one. -/
def read? (text : String) : Option (List Statement) :=
  let cs := dropByteOrderMark text.toList
  statements? (cs.length + 1) cs

end SciCalc.Toml
