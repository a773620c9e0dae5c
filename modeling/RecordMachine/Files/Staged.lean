import RecordMachine.Files.System
/-!
# Staged files

Contents are written to a temporary name beside their target and moved onto it
when they are complete. Of several files either all are moved into place, or
those that were moved are removed again.
-/
namespace RecordMachine.Files

inductive WriteError
  | targetIsDirectory (target : Path)
  | notWritten (target : Path) (cause : FileError)
  | notMoved (temporary target : Path) (cause : FileError)
  deriving DecidableEq, Repr

def WriteError.message : WriteError → String
  | .targetIsDirectory target => s!"cannot write {target}: is a directory"
  | .notWritten target cause => s!"failed to write {target}: {cause.message}"
  | .notMoved temporary target cause =>
    s!"failed to move {temporary} to {target}: {cause.message}"

structure Staged where
  temporary : Path
  target : Path
  deriving DecidableEq, Repr

variable {m : Type → Type} [Monad m] [FileSystem m]

namespace Staged

/-- Moves the file into place, or else removes it. -/
def commit (s : Staged) : m (Except WriteError Unit) := do
  match ← FileSystem.move s.temporary s.target with
  | .ok () => return .ok ()
  | .error cause =>
    let _ ← FileSystem.remove s.temporary
    return .error (.notMoved s.temporary s.target cause)

def discard (s : Staged) : m Unit := do
  let _ ← FileSystem.remove s.temporary

end Staged

/-- Writes the contents beside the target, which stays as it is. A part of them is removed again,
though `Tree.create` never leaves one. -/
def stage (mark : String) (target : Path) (contents : List UInt8) :
    m (Except WriteError Staged) := do
  if ← FileSystem.isDirectory target then return .error (.targetIsDirectory target)
  else
    let temporary := target.temporary mark
    match ← FileSystem.create temporary contents with
    | .ok () => return .ok ⟨temporary, target⟩
    | .error cause =>
      let _ ← FileSystem.remove temporary
      return .error (.notWritten target cause)

def write (mark : String) (target : Path) (contents : List UInt8) :
    m (Except WriteError Unit) := do
  match ← stage mark target contents with
  | .ok s => s.commit
  | .error e => return .error e

/-- Stages every file, or else discards those that were staged. -/
def stageAll (mark : String) :
    List (Path × List UInt8) → m (Except WriteError (List Staged))
  | [] => return .ok []
  | (target, contents) :: rest => do
    match ← stage mark target contents with
    | .error e => return .error e
    | .ok s =>
      match ← stageAll mark rest with
      | .ok more => return .ok (s :: more)
      | .error e =>
        s.discard
        return .error e

def discardAll : List Staged → m Unit
  | [] => return ()
  | s :: rest => do
    s.discard
    discardAll rest

/-- Commits every file, or else discards those still staged and removes those already moved. -/
def commitAll : List Staged → m (Except WriteError Unit)
  | [] => return .ok ()
  | s :: rest => do
    match ← s.commit with
    | .error e =>
      discardAll rest
      return .error e
    | .ok () =>
      match ← commitAll rest with
      | .ok () => return .ok ()
      | .error e =>
        let _ ← FileSystem.remove s.target
        return .error e

/-- Writes all files or leaves none of them in place. -/
def writeAll (mark : String) (files : List (Path × List UInt8)) :
    m (Except WriteError Unit) := do
  match ← stageAll mark files with
  | .error e => return .error e
  | .ok staged => commitAll staged

end RecordMachine.Files
