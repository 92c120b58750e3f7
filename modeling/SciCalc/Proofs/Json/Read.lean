/-
Reading JSON, the whole of it and nothing else: what another program understands by a text that it is passed. The
reader knows no more of how records are written than that they should be JSON.

Every step takes at least one character, so as many steps as there are characters are enough.
-/
import SciCalc.Decimal.Numeral
import SciCalc.Toml.Integer

namespace SciCalc.Json

/-- What a JSON text stands for. Numbers are doubles. -/
inductive Value where
  | null
  | boolean (b : Bool)
  | number (x : Float)
  | text (s : String)
  | array (elements : List Value)
  | object (members : List (String × Value))

/-- The blanks that may stand around the marks of a text. -/
def isBlank (c : Char) : Bool := c == ' ' || c == '\t' || c == '\n' || c == '\r'

/-- A text without the blanks it starts with. -/
def skipBlank (cs : List Char) : List Char := cs.dropWhile isBlank

/-! ## Quoted texts -/

/-- What the character after a backslash stands for, of those that stand for one character. -/
def simpleEscape? : Char → Option Char
  | '"' => some '"'
  | '\\' => some '\\'
  | '/' => some '/'
  | 'b' => some '\x08'
  | 'f' => some '\x0c'
  | 'n' => some '\n'
  | 'r' => some '\r'
  | 't' => some '\t'
  | _ => none

/-- The four digits in base sixteen at the front of a text, and the text after them. -/
def codeUnit? : List Char → Option (Nat × List Char)
  | a :: b :: c :: d :: cs =>
    if [a, b, c, d].all (Toml.isDigitOf 16) then some (Toml.ofDigits 16 [a, b, c, d], cs) else none
  | _ => none

/-- The character whose code is at the front of a text. A code that is the first half of a pair needs its second
half, and there is no second half alone. -/
def escapedCode? (cs : List Char) : Option (Char × List Char) := do
  let (code, cs) ← codeUnit? cs
  if 0xd800 ≤ code ∧ code < 0xdc00 then
    let '\\' :: 'u' :: cs := cs | none
    let (low, cs) ← codeUnit? cs
    if 0xdc00 ≤ low ∧ low < 0xe000 then
      some (Char.ofNat (0x10000 + (code - 0xd800) * 0x400 + (low - 0xdc00)), cs)
    else none
  else if 0xdc00 ≤ code ∧ code < 0xe000 then none
  else some (Char.ofNat code, cs)

/-- The character that the front of a quoted text stands for, and what comes after it. -/
def character? : List Char → Option (Char × List Char)
  | '\\' :: 'u' :: cs => escapedCode? cs
  | '\\' :: c :: cs => (simpleEscape? c).map fun c => (c, cs)
  | c :: cs => if c.toNat < 0x20 ∨ c = '"' ∨ c = '\\' then none else some (c, cs)
  | [] => none

/-- The rest of a quoted text, and what comes after the mark at its end. -/
def characters? : Nat → List Char → Option (List Char × List Char)
  | 0, _ => none
  | _, '"' :: cs => some ([], cs)
  | steps + 1, cs => do
    let (c, cs) ← character? cs
    let (text, cs) ← characters? steps cs
    some (c :: text, cs)

/-- A quoted text, and what comes after it. -/
def text? : List Char → Option (String × List Char)
  | '"' :: cs => (characters? (cs.length + 1) cs).map fun r => (String.ofList r.1, r.2)
  | _ => none

/-! ## Words -/

/-- Whether a character may stand in a number or a name. -/
def isWord (c : Char) : Bool := c.isAlphanum || c == '+' || c == '-' || c == '.'

/-- The number of a word without a sign. There are digits in front of the point, with no superfluous zero. -/
def magnitude? (word : List Char) : Option Float :=
  match Numeral.split? (word.map Char.toLower) with
  | some (m, []) => if m.whole = [] ∨ (m.whole.head? = some '0' ∧ m.whole ≠ ['0']) then none else some m.toDouble
  | _ => none

/-- The number of a word. -/
def number? : List Char → Option Float
  | '-' :: word => (magnitude? word).map fun x => -x
  | word => magnitude? word

/-- The value of a word. -/
def ofWord? (word : List Char) : Option Value :=
  if word = "null".toList then some .null
  else if word = "true".toList then some (.boolean true)
  else if word = "false".toList then some (.boolean false)
  else (number? word).map .number

/-- A value that has no parts, and what comes after it. -/
def scalar? (cs : List Char) : Option (Value × List Char) :=
  match text? cs with
  | some (text, cs) => some (.text text, cs)
  | none => (ofWord? (cs.takeWhile isWord)).map fun value => (value, cs.dropWhile isWord)

/-! ## Values -/

mutual

/-- A value, and what comes after it. -/
def value? : Nat → List Char → Option (Value × List Char)
  | 0, _ => none
  | steps + 1, '[' :: cs =>
    match skipBlank cs with
    | ']' :: cs => some (.array [], cs)
    | cs => (elements? steps cs).map fun r => (.array r.1, r.2)
  | steps + 1, '\x7b' :: cs =>
    match skipBlank cs with
    | '\x7d' :: cs => some (.object [], cs)
    | cs => (members? steps cs).map fun r => (.object r.1, r.2)
  | _, cs => scalar? cs

/-- The rest of the elements of an array, and what comes after the array. -/
def elements? : Nat → List Char → Option (List Value × List Char)
  | 0, _ => none
  | steps + 1, cs => do
    let (value, cs) ← value? steps cs
    match skipBlank cs with
    | ']' :: cs => some ([value], cs)
    | ',' :: cs =>
      let (elements, cs) ← elements? steps (skipBlank cs)
      some (value :: elements, cs)
    | _ => none

/-- The rest of the members of an object, and what comes after the object. -/
def members? : Nat → List Char → Option (List (String × Value) × List Char)
  | 0, _ => none
  | steps + 1, cs => do
    let (name, cs) ← text? cs
    let ':' :: cs := skipBlank cs | none
    let (value, cs) ← value? steps (skipBlank cs)
    match skipBlank cs with
    | '\x7d' :: cs => some ([(name, value)], cs)
    | ',' :: cs =>
      let (members, cs) ← members? steps (skipBlank cs)
      some ((name, value) :: members, cs)
    | _ => none

end

/-- The value of a JSON text, if it is one. -/
def read? (text : String) : Option Value :=
  match value? (text.toList.length + 1) (skipBlank text.toList) with
  | some (value, rest) => if skipBlank rest = [] then some value else none
  | none => none

end SciCalc.Json
