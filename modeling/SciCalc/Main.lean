/-
The program: it fetches the configuration file and what is typed, and writes what the run of the
command line says. Each typed line is answered before the next one is read.
-/
import SciCalc.CommandLine.Run

namespace SciCalc.Main

/-- What is found at a path. -/
def configFileAt (path : String) : IO ConfigFile := do
  try
    return .content (← IO.FS.readBinFile path)
  catch
    | .noFileOrDirectory .. => return .absent
    | _ => return .locked

/-- The usual place of the configuration file, if the user has a place for such files. -/
def usualPath? : IO (Option String) := do
  match ← IO.getEnv "XDG_CONFIG_HOME" with
  | some place =>
    if place.startsWith "/" then return some (place ++ "/zcalc/config.toml")
  | none => pure ()
  return (← IO.getEnv "HOME").map (· ++ "/.config/zcalc/config.toml")

/-- What is found at the place that the arguments name, or else at the usual one. -/
def configFileOf (a : Arguments) : IO ConfigFile := do
  match a.config with
  | some path => configFileAt path
  | none =>
    match ← usualPath? with
    | some path => configFileAt path
    | none => return .absent

/-- Writes an output to the two channels. -/
def write (output : Output) : IO Unit := do
  let out ← IO.getStdout
  out.putStr output.out
  out.flush
  (← IO.getStderr).putStr output.err

/-- The bytes of the next line, with its end. -/
partial def readLine (input : IO.FS.Stream) (line : ByteArray) : IO ByteArray := do
  let bytes ← input.read 1
  if bytes.isEmpty || bytes[0]? == some 0x0a then return line ++ bytes
  readLine input (line ++ bytes)

/-- Answers the typed lines. -/
partial def interact (json : Bool) (s : Session) : IO UInt32 := do
  write { out := Prompt.prompt }
  let line ← readLine (← IO.getStdin) ByteArray.empty
  match Prompt.next json s (Text.lines line).head? with
  | .more output s =>
    write output
    interact json s
  | .ended ending =>
    write ending.output
    return ending.status

/-- Writes what a run has written, and gives its status. -/
def finish (result : CommandLine.Result) : IO UInt32 := do
  write result.output
  return result.status

/-- Runs the program with its arguments, and gives its status. -/
def runWith (arguments : List String) : IO UInt32 := do
  match Arguments.ofList arguments with
  | .error halt => finish (CommandLine.Result.ofHalt halt)
  | .ok a =>
    match CommandLine.taskOf a (← configFileOf a) with
    | .error result => finish result
    | .ok (.calculate expression json s) => finish (CommandLine.calculate expression json s)
    | .ok (.interact json s) =>
      write { out := Prompt.banner s.mode }
      interact json s

end SciCalc.Main

/-- The program. -/
def main (arguments : List String) : IO UInt32 := SciCalc.Main.runWith arguments
