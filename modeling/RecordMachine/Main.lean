import RecordMachine.CommandLine.Report
/-!
# The program

Connects the command line with the files of the machine that it runs on.
-/
namespace RecordMachine.Files

/-- Some operations give the code of a refusal with a minus sign. -/
def FileError.ofCode (code : UInt32) (details : String) : FileError :=
  let code := min code (0 - code)
  match code with
  | 2 => .notFound
  | 16 => .busy
  | 20 => .notADirectory
  | 21 => .isADirectory
  | 36 => .nameTooLong
  | _ => .other s!"{details} (os error {code})"

def FileError.ofSystem : IO.Error → FileError
  | .alreadyExists _ code details | .otherError code details | .resourceBusy code details
  | .resourceVanished code details | .unsupportedOperation code details
  | .hardwareFault code details | .unsatisfiedConstraints code details
  | .illegalOperation code details | .protocolError code details | .timeExpired code details
  | .interrupted _ code details | .noFileOrDirectory _ code details
  | .invalidArgument _ code details | .permissionDenied _ code details
  | .resourceExhausted _ code details | .inappropriateType _ code details
  | .noSuchThing _ code details => .ofCode code details
  | .unexpectedEof => .other "unexpected end of file"
  | .userError details => .other details

/-- The outcome of an operation on some paths with its refusal as a value. -/
def attempt {α : Type} (paths : List Path) (action : IO α) : IO (Except FileError α) := do
  if paths.any Path.hasNul then return .error .nulInPath
  match ← action.toBaseIO with
  | .ok value => return .ok value
  | .error error => return .error (.ofSystem error)

instance : FileSystem IO where
  isDirectory path := do
    if path.hasNul then return false
    match ← (IO.FS.realPath path).toBaseIO with
    | .ok real => real.isDir
    | .error _ => return false
  read path := attempt [path] do return (← IO.FS.readBinFile path).toList
  create path contents := attempt [path] (IO.FS.writeBinFile path ⟨contents.toArray⟩)
  remove path := attempt [path] (IO.FS.removeFile path)
  move source target := attempt [source, target] (IO.FS.rename source target)

end RecordMachine.Files

open RecordMachine

def main (arguments : List String) : IO UInt32 := do
  let report ←
    match Arguments.read arguments (← IO.getEnv "UVM_MEMORY_SIZE") with
    | .error stop => pure stop.report
    | .ok request =>
      let mark := (← IO.FS.readFile "/proc/self/stat").takeWhile Char.isDigit
      request.run mark.toString
  IO.print report.output
  IO.eprint report.errors
  return report.exitCode
