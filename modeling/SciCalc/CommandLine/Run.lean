/-
A run of the program: what it is asked for by its arguments, in the settings of its configuration. It
answers one expression, or starts an interactive run if there is none. There is no clipboard here, so
that a wish to copy results is noted and changes nothing.
-/
import SciCalc.CommandLine.Arguments
import SciCalc.Prompt.Run

namespace SciCalc.CommandLine

/-- The version of the program. -/
def version : String := "zcalc 0.1.0"

/-- The help on the arguments. -/
def help : String :=
  "Evaluate calculator expressions, or start an interactive prompt when no expression is given\n\n" ++
    "Usage: zcalc [OPTIONS] [EXPRESSION]...\n\n" ++
    "Options:\n" ++
    "  -m, --mode <MODE>      Angle mode for trigonometric functions (deg or rad)\n" ++
    "  -c, --copy             Copy successful results to the clipboard\n" ++
    "      --json             Print results as JSON\n" ++
    "      --config <CONFIG>  Read configuration from this file instead of the default location\n" ++
    "  -h, --help             Print help\n" ++
    "  -V, --version          Print version"

/-- What is left to do when a request does not end the run by itself. -/
inductive Task where
  /-- To answer an expression. -/
  | calculate (expression : String) (json : Bool) (s : Session)
  /-- To answer what is typed. -/
  | interact (json : Bool) (s : Session)

/-- How a run ends: with a status, and with what it has written. -/
structure Result where
  status : UInt32
  output : Output
deriving DecidableEq

/-- The end of a run that is halted by its arguments. -/
def Result.ofHalt : Halt → Result
  | .version => ⟨0, Output.line version⟩
  | .help => ⟨0, Output.line help⟩
  | .usage e => ⟨2, { err := "error: " ++ e.message ++ "\n" }⟩

/-- The end of a run without settings. -/
def Result.ofConfigError (a : Arguments) : Result :=
  match a.config with
  | some path => ⟨1, Output.failure ("loading config from " ++ path)⟩
  | none => ⟨1, Output.failure "loading config"⟩

/-- The session that a run starts with. The mode among the arguments goes before the configured one. -/
def startOf (a : Arguments) (config : Config) : Session :=
  let s := Session.ofConfig config
  match a.mode with
  | some mode => s.setMode mode
  | none => s

/-- The settings, from the file that the arguments name or else from the usual one. -/
def configOf (a : Arguments) (file : ConfigFile) : Except ConfigError Config :=
  if a.config.isSome then Config.ofNamedFile file else Config.ofUsualFile file

/-- What is left to do after arguments and configuration are read. -/
def taskOf (a : Arguments) (file : ConfigFile) : Except Result Task :=
  match configOf a file with
  | .error _ => .error (Result.ofConfigError a)
  | .ok config =>
    let s := startOf a config
    if a.words = [] then .ok (.interact a.json s)
    else .ok (.calculate (" ".intercalate a.words) a.json s)

/-- The end of a run that answers one expression. -/
def calculate (expression : String) (json : Bool) (s : Session) : Result :=
  let report := (s.evaluate expression).1
  ⟨if report.isSuccess then 0 else 2, report.print json⟩

/-- The end of an interactive run. -/
def interact (json : Bool) (s : Session) (lines : List Text.Line) : Result :=
  ⟨(Prompt.answers json s lines).2.status, Prompt.transcript json s lines⟩

/-- The whole run of the program, given its arguments, the configuration file, named or usual, and what
is typed. -/
def run (arguments : List String) (file : Arguments → ConfigFile) (typed : ByteArray) : Result :=
  match Arguments.ofList arguments with
  | .error halt => Result.ofHalt halt
  | .ok a =>
    match taskOf a (file a) with
    | .error result => result
    | .ok (.calculate expression json s) => calculate expression json s
    | .ok (.interact json s) => interact json s (Text.lines typed)

end SciCalc.CommandLine
