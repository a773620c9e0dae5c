import RecordMachine.CommandLine.Command
/-!
# Arguments

The argument list of the program is read from left to right. Options before the
command and after it are kept apart, and of a shared option given in both places
the one after the command counts. A value is looked at only when the next
argument is known not to belong to it.
-/
namespace RecordMachine.Arguments

open Files

inductive Stop
  | usage | help | version
  deriving DecidableEq, Repr

inductive Flag
  | help | version | verbose | registers | strict
  deriving DecidableEq, Repr

inductive Setting
  | format | range | memorySize | maxSteps
  deriving DecidableEq, Repr

inductive CommandName
  | assemble | execute | disassemble
  deriving DecidableEq, Repr

def CommandName.ofText? : String → Option CommandName
  | "assemble" => some .assemble
  | "execute" => some .execute
  | "disassemble" => some .disassemble
  | _ => none

/-- What may be written before a command or after it. -/
structure Level where
  flags : List (String × Flag)
  letters : List (Char × Flag)
  settings : List (String × Setting)
  pathCount : Nat

namespace Level

def top : Level where
  flags := [("help", .help), ("verbose", .verbose), ("version", .version)]
  letters := [('h', .help), ('v', .verbose), ('V', .version)]
  settings := [("format", .format)]
  pathCount := 0

def ofCommand (name : CommandName) : Level where
  flags := [("help", .help), ("verbose", .verbose)] ++
    match name with
    | .assemble => []
    | .execute => [("registers", .registers)]
    | .disassemble => [("strict", .strict)]
  letters := [('h', .help), ('v', .verbose)]
  settings := [("format", .format)] ++
    match name with
    | .assemble | .disassemble => []
    | .execute => [("range", .range), ("memory-size", .memorySize), ("max-steps", .maxSteps)]
  pathCount :=
    match name with
    | .assemble | .execute => 3
    | .disassemble => 1

end Level

structure Given where
  format : Option Format := none
  range : Option AddressRange := none
  memorySize : Option Nat := none
  maxSteps : Option Nat := none
  registers : Bool := false
  strict : Bool := false
  paths : List Path := []

def number? (text : String) : Option Nat :=
  (AddressRange.unsigned? text.toList).map UInt64.toNat

/-- Puts a value where there is none; a value that cannot be read or comes second is wrong. -/
def fill {α : Type} (present : Option α) (value : Option α) : Except Stop (Option α) :=
  match present, value with
  | none, some value => .ok (some value)
  | _, _ => .error .usage

namespace Given

def set (g : Given) (setting : Setting) (text : String) : Except Stop Given := do
  match setting with
  | .format => return { g with format := ← fill g.format (Format.ofName? text) }
  | .range => return { g with range := ← fill g.range (AddressRange.ofText? text) }
  | .memorySize => return { g with memorySize := ← fill g.memorySize (number? text) }
  | .maxSteps => return { g with maxSteps := ← fill g.maxSteps (number? text) }

/-- A flag that asks for something else than a command ends the reading. -/
def raise (g : Given) : Flag → Except Stop Given
  | .help => .error .help
  | .version => .error .version
  | .verbose => .ok g
  | .registers => if g.registers then .error .usage else .ok { g with registers := true }
  | .strict => if g.strict then .error .usage else .ok { g with strict := true }

def addPath (g : Given) (path : Path) : Except Stop Given :=
  if path.isEmpty then .error .usage else .ok { g with paths := g.paths ++ [path] }

end Given

/-- The last argument, as long as the next one may still change what it means. -/
inductive Pending
  | nothing
  | setting (setting : Setting)
  | value (setting : Setting) (text : String)
  | path (path : Path)

structure Reading where
  given : Given := {}
  pending : Pending := .nothing
  onlyPaths : Bool := false

namespace Reading

/-- Accepts the last argument; an option whose value is still missing is wrong. -/
def settle (r : Reading) : Except Stop Reading := do
  match r.pending with
  | .nothing => return r
  | .setting _ => throw .usage
  | .value setting text =>
    return { r with given := ← r.given.set setting text, pending := .nothing }
  | .path path => return { r with given := ← r.given.addPath path, pending := .nothing }

def raise (r : Reading) (flag : Flag) : Except Stop Reading := do
  let r ← r.settle
  return { r with given := ← r.given.raise flag }

def readPath (level : Level) (r : Reading) (path : Path) : Except Stop Reading := do
  let r ← r.settle
  if r.given.paths.length < level.pathCount then return { r with pending := .path path }
  else throw .usage

def readLong (level : Level) (r : Reading) (name : String) (attached : Option String) :
    Except Stop Reading := do
  match level.flags.lookup name, level.settings.lookup name, attached with
  | some flag, _, none => r.raise flag
  | none, some setting, some text =>
    let r ← r.settle
    return { r with given := ← r.given.set setting text }
  | none, some setting, none =>
    let r ← r.settle
    return { r with pending := .setting setting }
  | _, _, _ => throw .usage

def readLetters (level : Level) (r : Reading) : List Char → Except Stop Reading
  | [] => .ok r
  | letter :: letters => do
    match level.letters.lookup letter with
    | some flag => readLetters level (← r.raise flag) letters
    | none => throw .usage

def splitLong (body : List Char) : String × Option String :=
  match body.dropWhile (· != '=') with
  | _ :: text => (String.ofList (body.takeWhile (· != '=')), some (String.ofList text))
  | [] => (String.ofList body, none)

def readOther (level : Level) (r : Reading) (argument : String) : Except Stop Reading :=
  if r.onlyPaths then r.readPath level argument
  else
    match argument.toList, r.pending with
    | ['-', '-'], _ => .ok { r with onlyPaths := true }
    | '-' :: '-' :: body, _ => r.readLong level (splitLong body).1 (splitLong body).2
    | '-' :: letter :: letters, _ => r.readLetters level (letter :: letters)
    | _, .setting setting => .ok { r with pending := .value setting argument }
    | _, _ => r.readPath level argument

def awaitsCommand (r : Reading) : Bool :=
  match r.pending with
  | .setting _ => false
  | _ => !r.onlyPaths

end Reading

def readHelp : List String → Stop
  | [] => .help
  | [name] => if (CommandName.ofText? name).isSome || name == "help" then .help else .usage
  | _ => .usage

/-- The options before the command, the command, and the arguments after it. -/
def readTop (r : Reading) : List String → Except Stop (Reading × CommandName × List String)
  | [] => .error .usage
  | argument :: rest => do
    if r.awaitsCommand then
      if argument == "help" then throw (readHelp rest)
      match CommandName.ofText? argument with
      | some name => return (r, name, rest)
      | none => readTop (← r.readOther .top argument) rest
    else readTop (← r.readOther .top argument) rest

inductive Request
  | assemble (command : AssembleCommand)
  | execute (command : ExecuteCommand)
  | disassemble (command : DisassembleCommand)
  deriving DecidableEq, Repr

/-- The size of the memory: an option, else a setting of the environment, else the default. -/
def memorySize (g : Given) (environment : Option String) : Except Stop Nat :=
  match g.memorySize, environment with
  | some size, _ => .ok size
  | none, some text =>
    match number? text with
    | some size => .ok size
    | none => .error .usage
  | none, none => .ok State.defaultMemorySize

def request (name : CommandName) (g : Given) (format : Format) (environment : Option String) :
    Except Stop Request := do
  match name, g.paths, g.range with
  | .assemble, [program, binaryOut, logOut], _ =>
    return .assemble { program, binaryOut, logOut, format }
  | .execute, [binary, traceOut, dumpOut], some range =>
    return .execute
      { binary, traceOut, dumpOut, range, format
        memorySize := ← memorySize g environment
        maxSteps := g.maxSteps
        store := if g.registers then .registers else .memory }
  | .disassemble, [binary], _ => return .disassemble { binary, strict := g.strict }
  | _, _, _ => throw .usage

/-- Reads all arguments; `environment` is the memory size that the environment asks for. -/
def read (arguments : List String) (environment : Option String) : Except Stop Request := do
  let (before, name, rest) ← readTop {} arguments
  let after ← (← rest.foldlM (Reading.readOther (.ofCommand name)) {}).settle
  let before ← before.settle
  let format := (after.given.format <|> before.given.format).getD .csv
  request name after.given format environment

end RecordMachine.Arguments
