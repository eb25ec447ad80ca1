import TapeMachine.CommandLine.Outcome

/-! # The command

    Reads the file that is needed, runs the machine to its end and prints the
    answer. -/

namespace TapeMachine.CommandLine

/-- Why the operating system did not give a file. -/
def readFailure : IO.Error → ReadFailure
  | .noFileOrDirectory _ _ _ => .notFound
  | .inappropriateType _ 21 _ => .isDirectory
  | .inappropriateType _ 20 _ => .notDirectory
  | .inappropriateType _ _ _ => .notDirectory
  | .invalidArgument _ 36 _ => .nameTooLong
  | .permissionDenied _ _ _ => .permissionDenied
  | e => .other e.toString

/-- The file at `path`, as the operating system gives it. -/
def readFile (path : String) : IO (Except ReadFailure (List UInt8)) := do
  if path.contains '\x00' then return .error .zeroInPath
  try
    let bytes ← IO.FS.readBinFile path
    return .ok bytes.toList
  catch e => return .error (readFailure e)

end TapeMachine.CommandLine

open TapeMachine CommandLine in
/-- Answers a command line. -/
def main (words : List String) : IO UInt32 := do
  let found : Except ReadFailure (List UInt8) ←
    match neededFile? words with
    | some path => readFile path
    | none => pure (.error .notFound)
  match answer? (fun _ => found) words with
  | some outcome =>
      IO.print outcome.stdout
      IO.eprint outcome.stderr
      return outcome.exitCode
  | none => return 1 -- never: without an answer the run goes on
