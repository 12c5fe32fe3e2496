import DeskCalc.CommandLine

/-!
# The program

Reads the configuration file and the standard input, and writes what a run of the
command line gives.
-/

open DeskCalc

/-- Why a file cannot be read, with the number that the system has for it. -/
def unreadable : IO.Error → String
  | .noFileOrDirectory .. => "No such file or directory (os error 2)"
  | .permissionDenied .. => "Permission denied (os error 13)"
  | .inappropriateType _ 21 _ => "Is a directory (os error 21)"
  | .inappropriateType .. => "Not a directory (os error 20)"
  | e => e.toString

/-- The content of a file, or why it cannot be read. -/
def readConfigFile (path : String) : IO (Except String String) := do
  try
    let bytes ← IO.FS.readBinFile path
    match String.fromUTF8? bytes with
    | some text => return .ok text
    | none => return .error InputError.notUtf8.message
  catch e => return .error (unreadable e)

/-- The content of the file that a command line names, whatever path it is asked for. -/
def namedFile (words : List String) : IO (String → Except String String) := do
  match (CommandLine.Options.parse? words).bind (·.configPath) with
  | none => return fun path => .error s!"{path} is not named"
  | some path =>
    let content ← readConfigFile path
    return fun _ => content

/-- Write an outcome and end with its exit code. -/
def conclude (outcome : CommandLine.Outcome) : IO UInt32 := do
  (← IO.getStdout).write outcome.output.toByteArray
  if let some failure := outcome.failure then
    IO.eprintln failure.report
  return outcome.exitCode.toUInt32

def main (words : List String) : IO UInt32 := do
  let read ← namedFile words
  match CommandLine.configure .full read words with
  | .error failure => conclude { failure := some failure }
  | .ok config =>
    let input ← (← IO.getStdin).readBinToEnd
    conclude (CommandLine.session config input.toList)
