import RecordMachine.Codec.Error
/-!
# Faults of the machine
-/
namespace RecordMachine

inductive Store
  | memory | registers
  deriving DecidableEq, Repr

def Store.cellName : Store → String
  | .memory => "memory" | .registers => "register"

def Store.name : Store → String
  | .memory => "memory" | .registers => "registers"

inductive ConfigError
  | noMemory
  | tooMuchMemory (size limit : Nat)
  deriving DecidableEq, Repr

def ConfigError.message : ConfigError → String
  | .noMemory => "memory size must be at least 1"
  | .tooMuchMemory size limit => s!"memory size {size} exceeds the addressable {limit} words"

inductive MachineError
  | codec (error : CodecError)
  | partialRecord (offset remaining : Nat)
  | unknownOpcode (offset : Nat) (tag : UInt8)
  | missingCell (offset : Nat) (opcode : Opcode) (store : Store) (index size : Nat)
  | rangeOutside (store : Store) (start stop size : Nat)
  | config (error : ConfigError)
  | stepLimit (limit : Nat)
  deriving DecidableEq, Repr

namespace MachineError

/-- The record at which the machine stopped, for errors that a single record causes. -/
def offset? : MachineError → Option Nat
  | .partialRecord offset _ | .unknownOpcode offset _ | .missingCell offset _ _ _ _ => some offset
  | .codec _ | .rangeOutside .. | .config _ | .stepLimit _ => none

/-- A dump request that is refused leaves a finished machine as it was. -/
def isFatal : MachineError → Bool
  | .rangeOutside .. => false
  | _ => true

def message : MachineError → String
  | .codec error => s!"Spec error: {error.message}"
  | .partialRecord offset remaining =>
    s!"Truncated instruction at offset {offset}: {remaining} byte(s) remaining"
  | .unknownOpcode offset tag =>
    s!"Decode error at offset {offset}: unknown opcode {Text.hex 2 tag.toNat}"
  | .missingCell offset opcode store index size =>
    s!"Range error at offset {offset} ({opcode.mnemonic}): {store.cellName} index {index} " ++
      s!"out of range (size {size})"
  | .rangeOutside store start stop size =>
    s!"Range error: {store.name} dump range {start}..={stop} outside 0..{size}"
  | .config error => s!"Invalid configuration: {error.message}"
  | .stepLimit limit => s!"Step limit exceeded: {limit}"

end MachineError

end RecordMachine
