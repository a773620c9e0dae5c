import RecordMachine.Files.Path
/-!
# File trees

A tree of directories and files, in which paths are followed from the top. A
path may only leave a directory: a part that follows a file or nothing at all
is refused. A name that is too long is refused where it is reached.
-/
namespace RecordMachine.Files

/-- The names from a place up to the top of the tree. -/
abbrev Location := List String

inductive Node
  | directory
  | file (contents : List UInt8)
  deriving DecidableEq, Repr

/-- Everything below the top. Of two nodes at one location the first one counts. -/
structure Tree where
  nodes : List (Location × Node)
  deriving DecidableEq, Repr

namespace Tree

def empty : Tree := ⟨[]⟩

def node? (t : Tree) : Location → Option Node
  | [] => some .directory
  | location => t.nodes.lookup location

def erase (t : Tree) (location : Location) : Tree :=
  ⟨t.nodes.filter fun entry => entry.1 != location⟩

def put (t : Tree) (location : Location) (node : Node) : Tree :=
  ⟨(location, node) :: (t.erase location).nodes⟩

theorem lookup_filter_ne (nodes : List (Location × Node)) (location other : Location) :
    (nodes.filter fun entry => entry.1 != location).lookup other =
      if other = location then none else nodes.lookup other := by
  induction nodes with
  | nil => simp
  | cons entry nodes ih =>
    obtain ⟨place, node⟩ := entry
    by_cases hp : place = location
    · subst hp
      by_cases ho : other = place
      · subst ho
        simpa using ih
      · have hne : (other == place) = false := by simp [ho]
        simpa [List.lookup_cons, hne, ho] using ih
    · by_cases ho : other = place
      · subst ho
        simp [hp]
      · have hne : (other == place) = false := by simp [ho]
        simp [List.lookup_cons, hp, hne, ih]

theorem node?_erase (t : Tree) (location other : Location) (h : other ≠ []) :
    (t.erase location).node? other = if other = location then none else t.node? other := by
  cases other with
  | nil => contradiction
  | cons name above => exact lookup_filter_ne t.nodes location (name :: above)

theorem node?_put (t : Tree) (location other : Location) (node : Node) (h : other ≠ []) :
    (t.put location node).node? other = if other = location then some node else t.node? other := by
  cases other with
  | nil => contradiction
  | cons name above =>
    by_cases hl : name :: above = location
    · subst hl
      simp [node?, put]
    · have he := t.node?_erase location (name :: above) h
      have hne : (name :: above == location) = false := by simp [hl]
      simp only [node?, put, List.lookup_cons, hne, hl, if_false] at he ⊢
      exact he

def plant (t : Tree) (node : Node) : Location → Tree
  | [] => t
  | name :: above =>
    let ground := if (t.node? above).isSome then t else t.plant .directory above
    ground.put (name :: above) node

def enter (location : Location) (part : String) : Location :=
  if Path.isIdle part then location
  else if part = ".." then location.tail
  else part :: location

def checkDirectory (t : Tree) (location : Location) : Except FileError Unit :=
  match t.node? location with
  | some .directory => .ok ()
  | some (.file _) => .error .notADirectory
  | none => .error .notFound

/-- The location that a path leads to; something may or may not stand there. -/
def follow (t : Tree) (location : Location) : List String → Except FileError Location
  | [] => .ok location
  | part :: parts => do
    t.checkDirectory location
    Path.checkName part
    t.follow (enter location part) parts

def locate (t : Tree) (path : Path) : Except FileError Location := do
  path.check
  t.follow [] path.parts

def isDirectory (t : Tree) (path : Path) : Bool :=
  match t.locate path with
  | .ok location => t.node? location == some .directory
  | .error _ => false

def read (t : Tree) (path : Path) : Except FileError (List UInt8) := do
  let location ← t.locate path
  match t.node? location with
  | some (.file contents) => .ok contents
  | some .directory => .error .isADirectory
  | none => .error .notFound

/-- Makes a file, or replaces the contents of the one that is there. All of the contents are
written or none: a write that stops half-way, with a part of them in the file, is left out. -/
def create (t : Tree) (path : Path) (contents : List UInt8) : Except FileError Tree := do
  let location ← t.locate path
  if t.node? location = some .directory then throw .isADirectory
  return t.put location (.file contents)

def remove (t : Tree) (path : Path) : Except FileError Tree := do
  let location ← t.locate path
  match t.node? location with
  | some (.file _) => .ok (t.erase location)
  | some .directory => .error .isADirectory
  | none => .error .notFound

structure Slot where
  directory : Location
  name : String
  /-- Whether the path ends in a slash and so insists on a directory. -/
  slashed : Bool
  deriving DecidableEq, Repr

/-- The directory and the name that a path ends in, for an entry that is made or moved. -/
def slot (t : Tree) (path : Path) : Except FileError Slot := do
  path.check
  match path.parts.reverse.dropWhile String.isEmpty with
  | [] => throw .busy
  | name :: above => do
    let directory ← t.follow [] above.reverse
    t.checkDirectory directory
    if name = "." ∨ name = ".." then throw .busy
    return ⟨directory, name, path.parts.getLast? == some ""⟩

/-- Moves a file to another name, and over the file that has this name already. -/
def move (t : Tree) (source target : Path) : Except FileError Tree := do
  if source.hasNul ∨ target.hasNul then throw .nulInPath
  let source ← t.slot source
  let target ← t.slot target
  Path.checkName source.name
  let origin := source.name :: source.directory
  let destination := target.name :: target.directory
  match t.node? origin with
  | none => throw .notFound
  | some .directory => throw .isADirectory
  | some (.file contents) =>
    Path.checkName target.name
    if source.slashed ∨ target.slashed then throw .notADirectory
    if t.node? destination = some .directory then throw .isADirectory
    return (t.erase origin).put destination (.file contents)

end Tree

end RecordMachine.Files
