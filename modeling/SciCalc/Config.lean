/-
The settings of a session, and the configuration file that the user gives them in. Each setting may be
left out; a name that is no setting's, or a value that does not suit its setting, spoils the whole
file. A configuration is never taken in part.
-/
import SciCalc.AngleMode
import SciCalc.Json.Object
import SciCalc.Toml.Document
import SciCalc.Toml.Read

namespace SciCalc

/-- The settings, each with the value that it has unless the user gives another. -/
structure Config where
  /-- The mode that a session starts in. -/
  angleMode : AngleMode := .degrees
  /-- How many results a session remembers at most. -/
  historyLimit : Nat := 50
  /-- Whether every result is copied. -/
  copyResults : Bool := false
deriving DecidableEq, Repr, Inhabited

/-- What is found at the place of a configuration file. -/
inductive ConfigFile where
  /-- There is no file. -/
  | absent
  /-- There is one, but it cannot be read. -/
  | locked
  | content (bytes : ByteArray)

/-- Why there are no settings. -/
inductive ConfigError where
  /-- The file is absent or locked, or it is no text. -/
  | unreadable
  /-- The file is no configuration. -/
  | invalid
deriving DecidableEq, Repr

namespace Config

/-- The angle mode that a value stands for, in a document `d` that has it under `angle_mode`. It is a
mode's name, or a table with nothing but a mode's name, under which there is nothing. -/
def modeOfItem? (d : Toml.Document) : Toml.Item → Option AngleMode
  | .text name => AngleMode.ofConfigName? name
  | .table _ =>
    match d.filter fun (path, _) => path.head? = some "angle_mode" ∧ 2 ≤ path.length with
    | [([_, name], .emptyArray)] | [([_, name], .table _)] => AngleMode.ofConfigName? name
    | _ => none
  | _ => none

/-- The bound below which a history limit can be set: it has to fit into a word of 64 bits. -/
def limitBound : Nat := Nat.pow 2 64

/-- The settings after an entry of a document `d`. What stands inside a table belongs to the entry of
that table. -/
def withSetting? (d : Toml.Document) (config : Config) : Toml.Key × Toml.Item → Option Config
  | (["angle_mode"], item) => (modeOfItem? d item).map fun mode => { config with angleMode := mode }
  | (["history_limit"], .integer (.ofNat limit)) =>
    if limit < limitBound then some { config with historyLimit := limit } else none
  | (["copy_results"], .boolean copy) => some { config with copyResults := copy }
  | (path, _) => if path.length = 1 then none else some config

/-- The settings in a document. -/
def ofDocument? (d : Toml.Document) : Option Config := d.foldlM (withSetting? d) {}

/-- The settings in the text of a file. -/
def ofText (text : String) : Except ConfigError Config :=
  match ((Toml.read? text).bind Toml.Document.ofStatements?).bind ofDocument? with
  | some config => .ok config
  | none => .error .invalid

/-- The settings in the bytes of a file. -/
def ofBytes (bytes : ByteArray) : Except ConfigError Config :=
  match String.fromUTF8? bytes with
  | some text => ofText text
  | none => .error .unreadable

/-- The settings in a file that the user names. It has to be there. -/
def ofNamedFile : ConfigFile → Except ConfigError Config
  | .absent | .locked => .error .unreadable
  | .content bytes => ofBytes bytes

/-- The settings in the file at the usual place. It need not be there. -/
def ofUsualFile : ConfigFile → Except ConfigError Config
  | .absent => .ok {}
  | file => ofNamedFile file

/-- The settings as a record. -/
def record (config : Config) : Json.Object :=
  [("angle_mode", .text config.angleMode.configName), ("history_limit", .natural config.historyLimit),
   ("copy_results", .boolean config.copyResults)]

/-- The text of that record. -/
def json (config : Config) : String := String.ofList config.record.written

end Config
end SciCalc
