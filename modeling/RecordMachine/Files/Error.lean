/-!
# Refusals of the file system
-/
namespace RecordMachine.Files

inductive FileError
  | notFound
  | isADirectory
  | notADirectory
  | busy
  /-- A name, or a path as a whole, has more bytes than are allowed. -/
  | nameTooLong
  | nulInPath
  | notText
  | other (message : String)
  deriving DecidableEq, Repr

def FileError.message : FileError → String
  | .notFound => "No such file or directory (os error 2)"
  | .busy => "Device or resource busy (os error 16)"
  | .notADirectory => "Not a directory (os error 20)"
  | .isADirectory => "Is a directory (os error 21)"
  | .nameTooLong => "File name too long (os error 36)"
  | .nulInPath => "file name contained an unexpected NUL byte"
  | .notText => "stream did not contain valid UTF-8"
  | .other message => message

end RecordMachine.Files
