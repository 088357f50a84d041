import TwoPass.Command.Session

/-!
# The command

Connects a session to the terminal and to the files of the machine.
-/

namespace TwoPass.Terminal

/-- Whether a failure of the machine has the given number, which some calls report with a minus
sign. -/
def hasNumber (reported number : UInt32) : Bool := reported == number || reported == 0 - number

/-- The error that stands for a failure of the machine. -/
def fileErrorOf : IO.Error → FileError
  | .inappropriateType _ reported _ => if hasNumber reported 20 then .notDirectory else .isDirectory
  | .invalidArgument _ reported _ => if hasNumber reported 36 then .nameTooLong else .missing
  | _ => .missing

/-- Reads the files that a run may need. -/
def readAll (paths : List Text) : IO (List (Text × Except FileError (List UInt8))) :=
  paths.mapM fun path => do
    try
      let bytes ← IO.FS.readBinFile (String.ofList path)
      return (path, .ok bytes.toList)
    catch error => return (path, .error (fileErrorOf error))

/-- Carries out steps, as far as they are possible. -/
def performAll : List Step → IO Bool
  | [] => return true
  | .print rows :: rest => do
    IO.print (String.ofList (Text.unlines rows))
    performAll rest
  | .write path contents :: rest => do
    try
      IO.FS.writeFile (String.ofList path) (String.ofList contents)
    catch error =>
      IO.println (String.ofList (Plan.failureRow (fileErrorOf error).message))
      return false
    performAll rest

/-- Carries out the request of a command line: the exit code. -/
def answer : Request → IO UInt32
  | .misuse => return 2
  | .version => do
    IO.println (String.ofList Session.versionRow)
    return 0
  | .run options => do
    let files ← readAll (options.config.toList ++ options.table.toList ++ [options.input])
    let read := fun path => (files.lookup path).getD (.error .missing)
    let plan := Session.plan .standard read options
    let done ← performAll plan.steps
    return if done && plan.success then 0 else 1

end TwoPass.Terminal

/-- Runs the command with the arguments of the command line. -/
def main (arguments : List String) : IO UInt32 :=
  TwoPass.Terminal.answer (TwoPass.Options.parse (arguments.map String.toList))
