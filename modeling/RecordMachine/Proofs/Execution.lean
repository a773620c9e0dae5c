import RecordMachine.Machine.Execution
/-!
# Cells that an instruction needs

Whether all cells of an instruction exist depends on the size of the memory
only, so it is settled before any value is known.
-/
namespace RecordMachine

namespace Instruction

/-- The cells that the instruction names, each with the number of cells in its store. -/
def namedCells (i : Instruction) (memorySize : Nat) : List (Store × Nat × Nat) :=
  i.registersRead.map (fun r => (.registers, r.toNat, State.registerCount)) ++
    i.registerWritten?.toList.map (fun r => (.registers, r.toNat, State.registerCount)) ++
    i.cellAddress?.toList.map (fun a => (.memory, a.toNat, memorySize))

/-- The first of these cells that does not exist. -/
def missingCell? (i : Instruction) (memorySize : Nat) : Option (Store × Nat × Nat) :=
  (i.namedCells memorySize).find? fun (_, index, size) => size ≤ index

theorem namedCells_eq (i : Instruction) (memorySize : Nat) :
    i.namedCells memorySize =
      (State.checkedRegisters i).map (fun r => (.registers, r.toNat, State.registerCount)) ++
        i.cellAddress?.toList.map (fun a => (.memory, a.toNat, memorySize)) := by
  rw [namedCells, State.checkedRegisters, List.map_append]

def missingRegister? (i : Instruction) : Option UInt8 :=
  (State.checkedRegisters i).find? (State.registerCount ≤ ·.toNat)

theorem missingCell?_eq (i : Instruction) (memorySize : Nat) :
    i.missingCell? memorySize =
      (i.missingRegister?.map fun r => (.registers, r.toNat, State.registerCount)).or
        ((i.cellAddress?.filter (memorySize ≤ ·.toNat)).map fun a =>
          (.memory, a.toNat, memorySize)) := by
  rw [missingCell?, namedCells_eq, List.find?_append, List.find?_map, missingRegister?]
  congr 1
  cases i.cellAddress? with
  | none => rfl
  | some a =>
    by_cases hm : memorySize ≤ a.toNat
    · simp [Option.filter_some, hm]
    · simp [Option.filter_some, hm]

theorem lt_of_missingCell?_eq_none {i : Instruction} {memorySize : Nat}
    (h : i.missingCell? memorySize = none) :
    (∀ r ∈ State.checkedRegisters i, r.toNat < State.registerCount) ∧
      ∀ a ∈ i.cellAddress?, a.toNat < memorySize := by
  rw [missingCell?, namedCells_eq, List.find?_eq_none] at h
  constructor
  · intro r hr
    have hc := h _ (List.mem_append_left _ (List.mem_map_of_mem hr))
    simpa using hc
  · intro a ha
    have hm : a ∈ i.cellAddress?.toList := Option.mem_toList.mpr ha
    have hc := h _ (List.mem_append_right _ (List.mem_map_of_mem hm))
    simpa using hc

end Instruction

namespace State

structure Sized (s : State) (memorySize : Nat) : Prop where
  registers : s.registers.size = registerCount
  memory : s.memory.size = memorySize

theorem sized_zero (memorySize : Nat) : (zero memorySize).Sized memorySize :=
  ⟨Array.size_replicate, Array.size_replicate⟩

namespace Sized

variable {s : State} {memorySize : Nat}

theorem writeRegister (h : s.Sized memorySize) (r : UInt8) (value : Word) :
    (s.writeRegister r value).Sized memorySize :=
  ⟨(size_registers_writeRegister s r value).trans h.registers, h.memory⟩

theorem writeMemory (h : s.Sized memorySize) (a : UInt16) (value : Word) :
    (s.writeMemory a value).Sized memorySize :=
  ⟨h.registers, (size_memory_writeMemory s a value).trans h.memory⟩

theorem apply (h : s.Sized memorySize) (i : Instruction) : (s.apply i).1.Sized memorySize := by
  cases i with
  | loadConst dst imm => exact h.writeRegister _ _
  | readMem dst addr => exact h.writeRegister _ _
  | writeMem addr src => exact h.writeMemory _ _
  | mod dstAddr aReg bReg =>
    simp only [State.apply]
    split
    · exact h.writeMemory _ _
    · exact h.writeMemory _ _

theorem readRegister?_eq_some (h : s.Sized memorySize) {r : UInt8}
    (hr : r.toNat < registerCount) : s.readRegister? r = some ((s.readRegister? r).getD 0) := by
  have hs : r.toNat < s.registers.size := h.registers.symm ▸ hr
  rw [readRegister?, Array.getElem?_eq_getElem hs, Option.getD_some]

theorem readMemory?_eq_some (h : s.Sized memorySize) {a : UInt16} (ha : a.toNat < memorySize) :
    s.readMemory? a = some ((s.readMemory? a).getD 0) := by
  have hs : a.toNat < s.memory.size := h.memory.symm ▸ ha
  rw [readMemory?, Array.getElem?_eq_getElem hs, Option.getD_some]

theorem checkCells_eq (h : s.Sized memorySize) (i : Instruction) (offset : Nat) :
    s.checkCells i offset =
      match i.missingCell? memorySize with
      | some (store, index, size) => .error (.missingCell offset i.opcode store index size)
      | none => .ok () := by
  have hr : (fun r : UInt8 => !s.hasRegister r) = fun r => decide (registerCount ≤ r.toNat) := by
    funext r
    simp only [hasRegister, h.registers, ← decide_not, Nat.not_lt]
  have ha : (fun a : UInt16 => !s.hasAddress a) = fun a => decide (memorySize ≤ a.toNat) := by
    funext a
    simp only [hasAddress, h.memory, ← decide_not, Nat.not_lt]
  rw [checkCells, hr, ha, i.missingCell?_eq, Instruction.missingRegister?, h.registers, h.memory]
  cases (checkedRegisters i).find? fun r => decide (registerCount ≤ r.toNat) with
  | some r => rfl
  | none =>
    cases i.cellAddress?.filter fun a => decide (memorySize ≤ a.toNat) with
    | none => rfl
    | some a => rfl

end Sized

end State

end RecordMachine
