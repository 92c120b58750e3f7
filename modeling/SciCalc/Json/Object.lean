/-
Records as they are passed on to other programs: objects of named fields on one line, without blanks,
the fields in the order in which they are listed.
-/
import SciCalc.Decimal.Layout
import SciCalc.Json.Quoted

namespace SciCalc.Json

/-- The value of a field. -/
inductive Atom where
  | boolean (b : Bool)
  | natural (n : Nat)
  | number (x : Float)
  | text (s : String)
deriving DecidableEq

/-- A record: its fields with their names. -/
abbrev Object := List (String × Atom)

/-- The text of a field's value. There is no number for what is not finite. -/
def Atom.written : Atom → List Char
  | boolean b => if b then "true".toList else "false".toList
  | natural n => Decimal.natText n
  | number x => (Decimal.dataText? x).getD "null".toList
  | text s => quoted s.toList

/-- The text of a field. -/
def fieldText (field : String × Atom) : List Char :=
  quoted field.1.toList ++ ':' :: field.2.written

/-- The text of a record. -/
def Object.written (fields : Object) : List Char :=
  '\x7b' :: ((List.intercalate [','] (fields.map fieldText)) ++ ['\x7d'])

end SciCalc.Json
