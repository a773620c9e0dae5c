import RecordMachine.Files.Error
/-!
# Paths

A path is a text whose parts are separated by slashes. Empty parts and dots
stay where they are, so they never count as the name of a file. Limits count
the bytes of the text.
-/
namespace RecordMachine.Files

abbrev Path := String

namespace Path

def parts (path : Path) : List String := (path.toList.splitOn '/').map String.ofList

def ofParts (parts : List String) : Path := String.intercalate "/" parts

/-- Such a part names no place of its own. -/
def isIdle (part : String) : Bool := part == "" || part == "."

/-- Removes the idle parts at the end, except the first part, which says where the path starts. -/
def dropIdle : List String → List String
  | [] => []
  | first :: rest => first :: (rest.reverse.dropWhile isIdle).reverse

def nameLimit : Nat := 255

def limit : Nat := 4095

def hasNul (path : Path) : Bool := path.toList.any fun c => c.toNat == 0

/-- Refuses a path that leads nowhere, whatever files there are. -/
def check (path : Path) : Except FileError Unit :=
  if path.hasNul then .error .nulInPath
  else if path.isEmpty then .error .notFound
  else if limit < path.utf8ByteSize then .error .nameTooLong
  else .ok ()

def checkName (part : String) : Except FileError Unit :=
  if nameLimit < part.utf8ByteSize then .error .nameTooLong else .ok ()

def fileName? (path : Path) : Option String :=
  (dropIdle path.parts).getLast?.filter fun part => !isIdle part && part != ".."

/-- The path of another name beside the file, or inside it if the path ends in no name. -/
def sibling (path : Path) (name : String) : Path :=
  match path.fileName? with
  | some _ => ofParts (dropIdle (dropIdle path.parts).dropLast ++ [name])
  | none =>
    if path.isEmpty || path.toList.getLast? == some '/' then path ++ name else path ++ "/" ++ name

/-- Where the contents of a file wait until they are complete. The mark tells processes apart. -/
def temporary (mark : String) (target : Path) : Path :=
  let name := target.fileName?.getD ""
  target.sibling s!".{name}.{mark}.tmp"

end Path

end RecordMachine.Files
