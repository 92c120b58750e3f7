/-
What the statements of a TOML text define: the value under each path of names. Nothing is defined
twice. A table can be opened by its header, or made along with something inside it; which of these it
was decides what may still be put into it.
-/
import SciCalc.Toml.Basic

namespace SciCalc.Toml

/-- How a table came to be. -/
inductive Origin where
  /-- By its own header. -/
  | header
  /-- By the header of a table inside it. A header of its own may follow. -/
  | implied
  /-- By a key with dots. Other such keys may put more into it. -/
  | dotted
  /-- Between braces. It is complete. -/
  | braces
deriving DecidableEq, Repr

/-- What a path of names leads to. -/
inductive Item where
  | text (content : String)
  | integer (value : Int)
  | boolean (value : Bool)
  | emptyArray
  | table (origin : Origin)
deriving DecidableEq, Repr

/-- A document: what each path leads to. -/
abbrev Document := List (Key × Item)

namespace Document

/-- What a path leads to. -/
def find? (d : Document) (path : Key) : Option Item := d.lookup path

/-- Makes a path lead to something, if it leads nowhere yet. -/
def define (d : Document) (path : Key) (item : Item) : Option Document :=
  if (d.find? path).isSome then none else some (d ++ [(path, item)])

/-- Goes through a table on the way to something inside it. If there is none, it is made; if there is
one, its origin has to be one that this way may use. -/
def enter (d : Document) (origin : Origin) (usable : List Origin) (path : Key) : Option Document :=
  match d.find? path with
  | none => some (d ++ [(path, .table origin)])
  | some (.table made) => if made ∈ usable then some d else none
  | some _ => none

/-- The keys of the tables that contain what a key names, the outermost first. -/
def enclosing : Key → List Key
  | [] | [_] => []
  | name :: key => [name] :: (enclosing key).map (name :: ·)

/-- Puts something that has no parts under a key into the table with the path `base`. -/
def assignItem (d : Document) (base key : Key) (item : Item) : Option Document := do
  let d ← (enclosing key).foldlM (fun d key => d.enter .dotted [.dotted] (base ++ key)) d
  d.define (base ++ key) item

mutual

/-- Puts a value under a key into the table with the path `base`. -/
def assign (d : Document) (base key : Key) : Value → Option Document
  | .text content => d.assignItem base key (.text content)
  | .integer value => d.assignItem base key (.integer value)
  | .boolean value => d.assignItem base key (.boolean value)
  | .emptyArray => d.assignItem base key .emptyArray
  | .table fields =>
    (d.assignItem base key (.table .braces)).bind fun d => d.assignAll (base ++ key) fields

/-- Puts fields into the table with the path `base`. -/
def assignAll (d : Document) (base : Key) : List (Key × Value) → Option Document
  | [] => some d
  | (key, value) :: fields => (d.assign base key value).bind fun d => d.assignAll base fields

end

/-- Opens a table by its header. -/
def openTable (d : Document) (key : Key) : Option Document := do
  let d ← (enclosing key).foldlM (fun d key => d.enter .implied [.header, .implied, .dotted] key) d
  match d.find? key with
  | some (.table .implied) =>
    some (d.map fun (path, item) => (path, if path = key then .table .header else item))
  | _ => d.define key (.table .header)

/-- The document of the statements of a text. The header in force is `base`. -/
def ofStatementsFrom (d : Document) (base : Key) : List Statement → Option Document
  | [] => some d
  | .header key :: statements => (d.openTable key).bind (ofStatementsFrom · key statements)
  | .assignment key value :: statements =>
    (d.assign base key value).bind (ofStatementsFrom · base statements)

/-- The document of the statements of a text. -/
def ofStatements? (statements : List Statement) : Option Document := ofStatementsFrom [] [] statements

end Document
end SciCalc.Toml
