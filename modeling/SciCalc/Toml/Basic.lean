/-
Configuration files in TOML, as far as a configuration can use it: what a file says, statement by
statement, before it is known which tables that makes. Numbers with a fraction, dates, and arrays with
elements have no place in a configuration, so there is no value for them.
-/
namespace SciCalc.Toml

/-- A key: one name, or several with dots between them, the outermost first. -/
abbrev Key := List String

/-- A value. -/
inductive Value where
  | text (content : String)
  | integer (value : Int)
  | boolean (value : Bool)
  | emptyArray
  /-- A table between braces. -/
  | table (fields : List (Key × Value))

/-- A statement of a file. -/
inductive Statement where
  /-- The header of a table: the assignments that follow belong to it. -/
  | header (key : Key)
  | assignment (key : Key) (value : Value)

end SciCalc.Toml
