import RecordMachine.Files.Tree
/-!
# File systems

The operations that commands need of a file system. A file tree that is passed
along from operation to operation has them all.
-/
namespace RecordMachine.Files

class FileSystem (m : Type → Type) where
  isDirectory : Path → m Bool
  read : Path → m (Except FileError (List UInt8))
  /-- Writes a whole file or nothing. A write that stops half-way is left out. -/
  create : Path → List UInt8 → m (Except FileError Unit)
  remove : Path → m (Except FileError Unit)
  move : Path → Path → m (Except FileError Unit)

/-- An operation that is refused leaves the tree as it is. -/
def Tree.update (change : Tree → Except FileError Tree) : StateM Tree (Except FileError Unit) :=
  fun t =>
    match change t with
    | .ok after => (.ok (), after)
    | .error e => (.error e, t)

instance : FileSystem (StateM Tree) where
  isDirectory path := fun t => (t.isDirectory path, t)
  read path := fun t => (t.read path, t)
  create path contents := Tree.update (·.create path contents)
  remove path := Tree.update (·.remove path)
  move source target := Tree.update (·.move source target)

def readText {m : Type → Type} [Monad m] [FileSystem m] (path : Path) :
    m (Except FileError String) := do
  match ← FileSystem.read path with
  | .error e => return .error e
  | .ok bytes =>
    match String.fromUTF8? ⟨bytes.toArray⟩ with
    | some text => return .ok text
    | none => return .error .notText

end RecordMachine.Files
