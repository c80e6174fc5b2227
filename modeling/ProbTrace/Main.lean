import ProbTrace.CommandLine.Session

/-!
# The program

Reads the arguments, the environment and the program file, and prints what the command
line leaves behind.  The log is opened before the program file is read.
-/

namespace ProbTrace

open CommandLine

/-- Why an operation on a file failed. -/
def fileFailure : IO.Error → FileFailure
  | .permissionDenied .. => .denied
  | .alreadyExists .. => .occupied
  | .inappropriateType _ code _ =>
    if code.toNat = FileFailure.directory.code then .directory else .notADirectory
  | .invalidArgument .. => .nameTooLong
  | _ => .missing

/-- Read a file, with the reason if it cannot be read. -/
def readProgramFile (path : String) : IO (Except FileFailure String) := do
  try
    return .ok (← IO.FS.readFile path)
  catch e => return .error (fileFailure e)

/-- The directory that a path names a file in; none for the current one. -/
def parentDirectory? (path : String) : Option String :=
  match path.toList.reverse.dropWhile (· != '/') with
  | [] => none
  | _ :: rest => some (String.ofList rest.reverse)

/-- Open a log file, with the directories it is in, or say why that cannot be done. -/
def openLog (path : String) : IO (Except FileFailure IO.FS.Handle) := do
  try
    match parentDirectory? path with
    | some directory => if !directory.isEmpty then IO.FS.createDirAll directory
    | none => pure ()
    return .ok (← IO.FS.Handle.mk path .append)
  catch e => return .error (fileFailure e)

/-- The environment variables of the settings. -/
def readVariables : IO (List (String × String)) := do
  let names := Settings.Field.all.map fun f => variableStart ++ Text.upper f.name
  let values ← names.mapM fun name => do return (name, ← IO.getEnv name)
  return values.filterMap fun (name, value?) => value?.map fun value => (name, value)

/-- The log file and the program file that the arguments name. -/
def namedFiles (argv : List String) : Option String × Option String :=
  match readArguments argv with
  | .ok o => (givenPath? o.logFile, givenPath? o.file)
  | .error _ => (none, none)

/-- The status of a process that ends in a way. -/
def exitStatus : Ending → UInt32
  | .finished status => UInt32.ofNat status
  | .usage => 2
  | .fault _ _ | .noLog _ | .invalidSettings _ | .tooDeep => 1

end ProbTrace

open ProbTrace in
def main (argv : List String) : IO UInt32 := do
  let (logPath, filePath) := namedFiles argv
  let log ← logPath.mapM openLog
  let file ← filePath.mapM readProgramFile
  let environment ← readVariables
  let files : CommandLine.Files :=
    { read := fun _ => file.getD (.error .missing)
      appendFailure? := fun _ => match log with
        | some (.error failure) => some failure
        | _ => none }
  let report := CommandLine.execute files (fun name => environment.lookup name) argv
  match report.log, log with
  | some (_, text), some (.ok handle) => handle.putStr text
  | _, _ => pure ()
  (← IO.getStderr).putStr report.stderr
  (← IO.getStdout).putStr report.stdout
  return exitStatus report.ending
