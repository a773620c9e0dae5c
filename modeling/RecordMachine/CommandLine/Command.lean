import RecordMachine.Assembly
import RecordMachine.Dump
import RecordMachine.Files.Format
import RecordMachine.Files.Staged
import RecordMachine.Listing
import RecordMachine.Machine
/-!
# Commands

Assembling, executing and disassembling files. Each command reads one file, and
writes its outputs through staged files.
-/
namespace RecordMachine

open Files

inductive SourceError
  | unreadable (cause : FileError)
  | rejected (cause : AssemblyError)
  deriving DecidableEq, Repr

def SourceError.message : SourceError → String
  | .unreadable cause => s!"I/O error: {cause.message}"
  | .rejected cause => cause.message

inductive CommandError
  | programUnreadable (path : Path) (cause : FileError)
  | programRejected (path : Path) (cause : AssemblyError)
  | binaryUnreadable (path : Path) (cause : FileError)
  | machineRefused (cause : MachineError)
  | runFaulted (path : Path) (fault : RunFault)
  | faultUnrecorded (path : Path) (fault : RunFault) (cause : WriteError)
  | dumpRefused (store : Store) (range : AddressRange) (cause : MachineError)
  | outputUnwritten (cause : WriteError)
  deriving DecidableEq, Repr

/-- What was attempted, followed by the chain of causes. -/
def CommandError.message : CommandError → String
  | .programUnreadable path cause => s!"failed to read program {path}: {cause.message}"
  | .programRejected path cause => s!"failed to assemble {path}: {cause.message}"
  | .binaryUnreadable path cause => s!"failed to read binary {path}: {cause.message}"
  | .machineRefused cause => s!"invalid machine configuration: {cause.message}"
  | .runFaulted path fault => s!"failed to execute {path}: {fault.message}: {fault.error.message}"
  | .faultUnrecorded path fault cause =>
    s!"failed to execute {path}: {fault.message}: {cause.message}"
  | .dumpRefused store range cause =>
    s!"cannot dump {store.name} range {range.display}: {cause.message}"
  | .outputUnwritten cause => cause.message

structure AssembleCommand where
  program : Path
  binaryOut : Path
  logOut : Path
  format : Format
  deriving DecidableEq, Repr

structure ExecuteCommand where
  binary : Path
  traceOut : Path
  dumpOut : Path
  range : AddressRange
  memorySize : Nat
  maxSteps : Option Nat
  store : Store
  format : Format
  deriving DecidableEq, Repr

structure DisassembleCommand where
  binary : Path
  strict : Bool
  deriving DecidableEq, Repr

variable {m : Type → Type} [Monad m] [FileSystem m]

def assembleFile (path : Path) : m (Except SourceError Assembly) := do
  match ← readText path with
  | .error cause => return .error (.unreadable cause)
  | .ok source => return (Assembly.ofSource source).mapError .rejected

namespace AssembleCommand

/-- Writes the stream and the log of a program, or neither of them. -/
def run (mark : String) (c : AssembleCommand) : m (Except CommandError Unit) := do
  match ← assembleFile c.program with
  | .error (.unreadable cause) => return .error (.programUnreadable c.program cause)
  | .error (.rejected cause) => return .error (.programRejected c.program cause)
  | .ok assembly =>
    let log := c.format.render assembly.log.csv assembly.log.toJson
    return (← writeAll mark [(c.binaryOut, assembly.bytes), (c.logOut, log)]).mapError
      .outputUnwritten

end AssembleCommand

namespace ExecuteCommand

def config (c : ExecuteCommand) : Config := ⟨c.memorySize, c.maxSteps⟩

def writeTrace (mark : String) (c : ExecuteCommand) (journal : Journal) :
    m (Except WriteError Unit) :=
  write mark c.traceOut (c.format.render journal.csv journal.toJson)

def writeDump (mark : String) (c : ExecuteCommand) (state : State) :
    m (Except CommandError Unit) := do
  match state.dump c.store c.range with
  | .error cause => return .error (.dumpRefused c.store c.range cause)
  | .ok dump =>
    return (← write mark c.dumpOut (c.format.render dump.csv dump.toJson)).mapError
      .outputUnwritten

/-- Runs a stream and writes its trace, and after a run that halts also a dump. -/
def run (mark : String) (c : ExecuteCommand) : m (Except CommandError Unit) := do
  match ← FileSystem.read c.binary with
  | .error cause => return .error (.binaryUnreadable c.binary cause)
  | .ok bytes =>
    match Machine.start bytes c.config with
    | .error cause => return .error (.machineRefused cause)
    | .ok machine =>
      match machine.run with
      | .error fault =>
        match ← c.writeTrace mark fault.journal with
        | .error cause => return .error (.faultUnrecorded c.binary fault cause)
        | .ok () => return .error (.runFaulted c.binary fault)
      | .ok result =>
        match ← c.writeTrace mark result.journal with
        | .error cause => return .error (.outputUnwritten cause)
        | .ok () => c.writeDump mark result.state

end ExecuteCommand

namespace DisassembleCommand

def run (c : DisassembleCommand) : m (Except CommandError String) := do
  match ← FileSystem.read c.binary with
  | .error cause => return .error (.binaryUnreadable c.binary cause)
  | .ok bytes => return .ok (Listing.ofBytes bytes c.strict)

end DisassembleCommand

end RecordMachine
