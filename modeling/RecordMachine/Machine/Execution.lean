import RecordMachine.Machine.Error
import RecordMachine.Machine.State
/-!
# Execution of one instruction

Every cell that an instruction names is checked before anything is changed, so
an instruction is executed as a whole or not at all.
-/
namespace RecordMachine

namespace State

/-- The registers in the order in which they are checked: those read, then the one written. -/
def checkedRegisters (i : Instruction) : List UInt8 :=
  i.registersRead ++ i.registerWritten?.toList

def checkCells (s : State) (i : Instruction) (offset : Nat) : Except MachineError Unit :=
  match (checkedRegisters i).find? (!s.hasRegister ·) with
  | some register =>
    .error (.missingCell offset i.opcode .registers register.toNat s.registers.size)
  | none =>
    match i.cellAddress?.filter (!s.hasAddress ·) with
    | some address => .error (.missingCell offset i.opcode .memory address.toNat s.memory.size)
    | none => .ok ()

def setRegister (s : State) (register : UInt8) (value : Word) : State × Effect :=
  (s.writeRegister register value,
    .registerWrite register ((s.readRegister? register).getD 0) value)

def setMemory (s : State) (address : UInt16) (value : Word) : State × Effect :=
  (s.writeMemory address value, .memoryWrite address ((s.readMemory? address).getD 0) value)

/-- The state after an instruction whose cells all exist, and what it did. -/
def apply (s : State) : Instruction → State × List Effect
  | .loadConst dst imm =>
    let (s, effect) := s.setRegister dst imm
    (s, [effect])
  | .readMem dst addr =>
    let (s, effect) := s.setRegister dst ((s.readMemory? addr).getD 0)
    (s, [effect])
  | .writeMem addr src =>
    let (s, effect) := s.setMemory addr ((s.readRegister? src).getD 0)
    (s, [effect])
  | .mod dstAddr aReg bReg =>
    let a := (s.readRegister? aReg).getD 0
    let b := (s.readRegister? bReg).getD 0
    if b = 0 then
      let (s, effect) := s.setMemory dstAddr 0
      (s, [effect, .divisionByZero dstAddr a])
    else
      let (s, effect) := s.setMemory dstAddr (a % b)
      (s, [effect])

/-- Executes the instruction whose record stands at `offset` as the step with the given number. -/
def execute (s : State) (i : Instruction) (offset step : Nat) :
    Except MachineError (State × Journal) := do
  s.checkCells i offset
  let (after, effects) := s.apply i
  return (after, effects.map fun effect => ⟨step, offset, i, effect⟩)

end State

end RecordMachine
