/-
The arguments of the program: options and the words of an expression, in any order. They are read from
left to right, and the first that cannot be used ends the reading with an error, as a request for the
version or for help ends it with that answer.

An option is written with one dash and a letter, or with two and its name. Letters may share one dash,
the last of them with its value right behind it; between an option and its value there is a `=`, or
nothing, or the value is the next argument. After a bare `--` all arguments are words. A single dash
is a word, too.
-/
import SciCalc.AngleMode

namespace SciCalc

/-- The options of the program. -/
inductive Flag where
  | mode | copy | json | config | version | help
deriving DecidableEq, Repr

namespace Flag

/-- The options with the letters they have. -/
def ofLetter? : Char → Option Flag
  | 'm' => some mode
  | 'c' => some copy
  | 'V' => some version
  | 'h' => some help
  | _ => none

/-- The name of an option. -/
def name : Flag → String
  | mode => "mode"
  | copy => "copy"
  | json => "json"
  | config => "config"
  | version => "version"
  | help => "help"

/-- All options. -/
def all : List Flag := [mode, copy, json, config, version, help]

/-- The option with a name, which has to be complete. -/
def ofName? (name : String) : Option Flag := all.find? fun flag => flag.name = name

/-- Whether an option has a value. -/
def takesValue : Flag → Bool
  | mode | config => true
  | _ => false

end Flag

/-- What the arguments say about a calculation. -/
structure Arguments where
  mode : Option AngleMode := none
  copy : Bool := false
  json : Bool := false
  /-- The path of the configuration file. -/
  config : Option String := none
  /-- The words of the expression. -/
  words : List String := []
deriving DecidableEq, Repr, Inhabited

/-- Why the arguments cannot be used. -/
inductive UsageError where
  | unknown (argument : String)
  | repeated (flag : Flag)
  | missingValue (flag : Flag)
  | needlessValue (flag : Flag) (value : String)
  | unknownMode (e : UnknownAngleMode)
deriving DecidableEq, Repr

/-- What the user is told about it. -/
def UsageError.message : UsageError → String
  | unknown argument => "unexpected argument '" ++ argument ++ "' found"
  | repeated flag => "the argument '--" ++ flag.name ++ "' cannot be used multiple times"
  | missingValue flag => "a value is required for '--" ++ flag.name ++ "' but none was supplied"
  | needlessValue flag value =>
    "unexpected value '" ++ value ++ "' for '--" ++ flag.name ++ "' found; no more were expected"
  | unknownMode e => e.message

/-- Why the reading of arguments ends before their end. -/
inductive Halt where
  | version
  | help
  | usage (e : UsageError)
deriving DecidableEq, Repr

namespace Arguments

/-- Whether an option was given. -/
def has (a : Arguments) : Flag → Bool
  | .mode => a.mode.isSome
  | .copy => a.copy
  | .json => a.json
  | .config => a.config.isSome
  | .version | .help => false

/-- Adds a word of the expression. -/
def addWord (a : Arguments) (word : String) : Arguments := { a with words := a.words ++ [word] }

/-- Adds an option without a value. -/
def setFlag (a : Arguments) (flag : Flag) : Except Halt Arguments :=
  if a.has flag then .error (.usage (.repeated flag))
  else
    match flag with
    | .copy => .ok { a with copy := true }
    | .json => .ok { a with json := true }
    | .version => .error .version
    | .help => .error .help
    | .mode | .config => .error (.usage (.missingValue flag))

/-- Adds an option with its value. -/
def setValue (a : Arguments) (flag : Flag) (value : String) : Except Halt Arguments :=
  if a.has flag then .error (.usage (.repeated flag))
  else
    match flag with
    | .mode =>
      match AngleMode.ofText value with
      | .ok mode => .ok { a with mode := some mode }
      | .error e => .error (.usage (.unknownMode e))
    | .config =>
      if value = "" then .error (.usage (.missingValue flag)) else .ok { a with config := some value }
    | flag => .error (.usage (.needlessValue flag value))

/-- The value behind an option in the same argument, if there is one. -/
def attached? : List Char → Option String
  | [] => none
  | '=' :: value => some (String.ofList value)
  | value => some (String.ofList value)

/-- Adds the options whose letters share a dash. The last of them may still need a value. -/
def addLetters (a : Arguments) : List Char → Except Halt (Arguments × Option Flag)
  | [] => .ok (a, none)
  | c :: cs =>
    match Flag.ofLetter? c with
    | none => .error (.usage (.unknown (String.ofList ['-', c])))
    | some flag =>
      if flag.takesValue then
        match attached? cs with
        | some value => (a.setValue flag value).map (·, none)
        | none => .ok (a, some flag)
      else
        match a.setFlag flag with
        | .ok a => a.addLetters cs
        | .error e => .error e

/-- Adds an option that is written with its name, and perhaps with its value. -/
def addNamed (a : Arguments) (text : List Char) : Except Halt (Arguments × Option Flag) :=
  let name := String.ofList (text.takeWhile (· ≠ '='))
  match Flag.ofName? name, text.dropWhile (· ≠ '=') with
  | none, _ => .error (.usage (.unknown ("--" ++ name)))
  | some flag, '=' :: value =>
    if flag.takesValue then (a.setValue flag (String.ofList value)).map (·, none)
    else .error (.usage (.needlessValue flag (String.ofList value)))
  | some flag, _ => if flag.takesValue then .ok (a, some flag) else (a.setFlag flag).map (·, none)

/-- Whether an argument is an option rather than a word or a value. -/
def isOption : List Char → Bool
  | '-' :: _ :: _ => true
  | _ => false

/-- Adds the rest of the arguments. If an option is `due`, its value is next. -/
def addAll (a : Arguments) (due : Option Flag) : List String → Except Halt Arguments
  | [] =>
    match due with
    | some flag => .error (.usage (.missingValue flag))
    | none => .ok a
  | text :: rest =>
    match due with
    | some flag =>
      if isOption text.toList then .error (.usage (.missingValue flag))
      else
        match a.setValue flag text with
        | .ok a => a.addAll none rest
        | .error e => .error e
    | none =>
      match text.toList with
      | ['-', '-'] => .ok { a with words := a.words ++ rest }
      | '-' :: '-' :: named =>
        match a.addNamed named with
        | .ok (a, due) => a.addAll due rest
        | .error e => .error e
      | '-' :: c :: letters =>
        match a.addLetters (c :: letters) with
        | .ok (a, due) => a.addAll due rest
        | .error e => .error e
      | _ => (a.addWord text).addAll none rest

/-- What the arguments say. -/
def ofList (arguments : List String) : Except Halt Arguments := ({} : Arguments).addAll none arguments

end Arguments
end SciCalc
