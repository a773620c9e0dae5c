import RecordMachine.Journal
/-!
# Machine state

A file of registers and a memory of words. Reading or writing a cell that does
not exist gives nothing.
-/
namespace RecordMachine

structure State where
  registers : Array Word
  memory : Array Word
  deriving DecidableEq, Repr

namespace State

def registerCount : Nat := 64

def defaultMemorySize : Nat := 1024

/-- The number of cells that an address of sixteen bits can name. -/
def maxMemorySize : Nat := 1 <<< 16

def zero (memorySize : Nat) : State where
  registers := Array.replicate registerCount 0
  memory := Array.replicate memorySize 0

def hasRegister (s : State) (register : UInt8) : Bool := register.toNat < s.registers.size

def hasAddress (s : State) (address : UInt16) : Bool := address.toNat < s.memory.size

def readRegister? (s : State) (register : UInt8) : Option Word := s.registers[register.toNat]?

def readMemory? (s : State) (address : UInt16) : Option Word := s.memory[address.toNat]?

/-- Overwrites a register; without such a register the state stays as it is. -/
def writeRegister (s : State) (register : UInt8) (value : Word) : State :=
  { s with registers := s.registers.setIfInBounds register.toNat value }

def writeMemory (s : State) (address : UInt16) (value : Word) : State :=
  { s with memory := s.memory.setIfInBounds address.toNat value }

@[simp] theorem size_registers_writeRegister (s : State) (register : UInt8) (value : Word) :
    (s.writeRegister register value).registers.size = s.registers.size := by
  simp [writeRegister]

@[simp] theorem size_memory_writeMemory (s : State) (address : UInt16) (value : Word) :
    (s.writeMemory address value).memory.size = s.memory.size := by
  simp [writeMemory]

theorem readRegister?_writeRegister (s : State) (register other : UInt8) (value : Word) :
    (s.writeRegister register value).readRegister? other =
      if other = register ∧ s.hasRegister register then some value else s.readRegister? other := by
  by_cases he : other = register
  · subst he
    by_cases hr : other.toNat < s.registers.size
    · simp [readRegister?, writeRegister, hasRegister, hr]
    · simp [readRegister?, writeRegister, hasRegister, hr]
  · have hne : register.toNat ≠ other.toNat := fun h => he (UInt8.toNat_inj.mp h.symm)
    simp [readRegister?, writeRegister, Array.getElem?_setIfInBounds_ne hne, he]

theorem readMemory?_writeMemory (s : State) (address other : UInt16) (value : Word) :
    (s.writeMemory address value).readMemory? other =
      if other = address ∧ s.hasAddress address then some value else s.readMemory? other := by
  by_cases he : other = address
  · subst he
    by_cases hr : other.toNat < s.memory.size
    · simp [readMemory?, writeMemory, hasAddress, hr]
    · simp [readMemory?, writeMemory, hasAddress, hr]
  · have hne : address.toNat ≠ other.toNat := fun h => he (UInt16.toNat_inj.mp h.symm)
    simp [readMemory?, writeMemory, Array.getElem?_setIfInBounds_ne hne, he]

end State

end RecordMachine
