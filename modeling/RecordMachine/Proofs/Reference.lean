import Mathlib.Logic.Function.Basic
import RecordMachine.Proofs.Replay
/-!
# Reference semantics

The meaning of an instruction on registers and a memory without bounds. The
machine that reads the stream of a program agrees with it on all cells that the
machine has.
-/
namespace RecordMachine

/-- A word for every register and every memory cell that an instruction can name. -/
structure Cells where
  registers : UInt8 → Word
  memory : UInt16 → Word

namespace Cells

def zero : Cells := ⟨fun _ => 0, fun _ => 0⟩

def setRegister (c : Cells) (r : UInt8) (value : Word) : Cells :=
  { c with registers := Function.update c.registers r value }

def setMemory (c : Cells) (a : UInt16) (value : Word) : Cells :=
  { c with memory := Function.update c.memory a value }

theorem registers_setRegister (c : Cells) (r other : UInt8) (value : Word) :
    (c.setRegister r value).registers other = if other = r then value else c.registers other :=
  Function.update_apply c.registers r value other

theorem memory_setMemory (c : Cells) (a other : UInt16) (value : Word) :
    (c.setMemory a value).memory other = if other = a then value else c.memory other :=
  Function.update_apply c.memory a value other

/-- What an instruction means. A remainder by zero is zero. -/
def step (c : Cells) : Instruction → Cells
  | .loadConst dst imm => c.setRegister dst imm
  | .readMem dst addr => c.setRegister dst (c.memory addr)
  | .writeMem addr src => c.setMemory addr (c.registers src)
  | .mod dstAddr aReg bReg =>
    c.setMemory dstAddr
      (if c.registers bReg = 0 then 0 else c.registers aReg % c.registers bReg)

end Cells

/-- The state has all registers and a memory of the given size, and they hold these words. -/
structure State.Holds (s : State) (memorySize : Nat) (c : Cells) : Prop where
  sized : s.Sized memorySize
  registers (r : UInt8) (hr : r.toNat < State.registerCount) :
    s.readRegister? r = some (c.registers r)
  memory (a : UInt16) (ha : a.toNat < memorySize) : s.readMemory? a = some (c.memory a)

namespace State.Holds

variable {s : State} {memorySize : Nat} {c : Cells}

theorem zero (memorySize : Nat) : (State.zero memorySize).Holds memorySize .zero where
  sized := sized_zero memorySize
  registers r hr := by
    rw [readRegister?, State.zero, Array.getElem?_replicate, if_pos hr]
    rfl
  memory a ha := by
    rw [readMemory?, State.zero, Array.getElem?_replicate, if_pos ha]
    rfl

theorem setRegister (h : s.Holds memorySize c) (r : UInt8) (value : Word) :
    (s.setRegister r value).1.Holds memorySize (c.setRegister r value) where
  sized := h.sized.writeRegister r value
  registers other hr := by
    rw [State.setRegister, readRegister?_writeRegister, Cells.registers_setRegister]
    by_cases he : other = r
    · have hs : s.hasRegister r := by
        rw [hasRegister, h.sized.registers, ← he]
        exact decide_eq_true hr
      rw [if_pos ⟨he, hs⟩, if_pos he]
    · rw [if_neg (fun hh => he hh.1), if_neg he, h.registers other hr]
  memory a ha := h.memory a ha

theorem setMemory (h : s.Holds memorySize c) (a : UInt16) (value : Word) :
    (s.setMemory a value).1.Holds memorySize (c.setMemory a value) where
  sized := h.sized.writeMemory a value
  registers r hr := h.registers r hr
  memory other ha := by
    rw [State.setMemory, readMemory?_writeMemory, Cells.memory_setMemory]
    by_cases he : other = a
    · have hs : s.hasAddress a := by
        rw [hasAddress, h.sized.memory, ← he]
        exact decide_eq_true ha
      rw [if_pos ⟨he, hs⟩, if_pos he]
    · rw [if_neg (fun hh => he hh.1), if_neg he, h.memory other ha]

theorem apply (h : s.Holds memorySize c) {i : Instruction}
    (hc : i.missingCell? memorySize = none) : (s.apply i).1.Holds memorySize (c.step i) := by
  obtain ⟨hr, ha⟩ := Instruction.lt_of_missingCell?_eq_none hc
  cases i with
  | loadConst dst imm => exact h.setRegister dst imm
  | readMem dst addr =>
    rw [Cells.step, State.apply, h.memory addr (ha addr rfl)]
    exact h.setRegister dst _
  | writeMem addr src =>
    rw [Cells.step, State.apply, h.registers src (hr src (List.mem_singleton.mpr rfl))]
    exact h.setMemory addr _
  | mod dstAddr aReg bReg =>
    have hA := h.registers aReg (hr aReg List.mem_cons_self)
    have hB := h.registers bReg (hr bReg (List.mem_cons_of_mem _ List.mem_cons_self))
    simp only [Cells.step, State.apply, hA, hB, Option.getD_some]
    split
    next => exact h.setMemory dstAddr 0
    next => exact h.setMemory dstAddr _

theorem applyAll (h : s.Holds memorySize c) {p : Program}
    (hp : ∀ i ∈ p, i.missingCell? memorySize = none) :
    (s.applyAll p).Holds memorySize (p.foldl Cells.step c) := by
  induction p generalizing s c with
  | nil => exact h
  | cons i p ih =>
    obtain ⟨hi, hrest⟩ := List.forall_mem_cons.mp hp
    exact ih (h.apply hi) hrest

end State.Holds

namespace Program

theorem instructionAt?_stream (p : Program) (k : Nat) : instructionAt? p.stream k = p[k]? := by
  rw [instructionAt?, split_stream, List.getElem?_map]
  cases p[k]? with
  | none => rfl
  | some i =>
    rw [Option.map_some, Option.bind_some, Record.decode_record]
    rfl

theorem eq_take_of_course {p q : Program} {config : Config} {ending : Ending}
    (c : Course p.stream config 0 q ending) : q = p.take q.length := by
  -- Both lists hold the instructions of the records below `q.length` and nothing else.
  apply List.ext_getElem?
  intro j
  rw [List.getElem?_take]
  split
  next hj =>
    have hi := c.instructionAt?_add (List.getElem?_eq_getElem hj)
    rw [Nat.zero_add, instructionAt?_stream] at hi
    rw [List.getElem?_eq_getElem hj, hi]
  next hj => exact List.getElem?_eq_none (Nat.le_of_not_lt hj)

end Program

namespace Machine

/-- The machine does what the instructions of the program mean, one after the other, up to the end
of the program or to the first record at which the run cannot go on. -/
theorem exists_run_ofProgram (p : Program) (config : Config) (hpos : 0 < config.memorySize)
    (hmax : config.memorySize ≤ 65536) :
    ∃ m k, ofProgram p config = .ok m ∧ k ≤ p.length ∧
      (∀ j < k, endingAt? p.stream config j = none) ∧
      (∀ i ∈ p.take k, i.missingCell? config.memorySize = none) ∧
      match m.run with
      | .ok r => k = p.length ∧ r.steps = k ∧
          r.state.Holds config.memorySize ((p.take k).foldl Cells.step .zero)
      | .error f => k < p.length ∧ endingAt? p.stream config k = some (.fault f.error) ∧
          f.offset = k * Record.size ∧
          f.journal.changes.map JournalEntry.instruction = p.take k ∧
          f.state.Holds config.memorySize ((p.take k).foldl Cells.step .zero) := by
  obtain ⟨m, q, ending, hm, c, hrun⟩ := exists_run p.stream hpos hmax
  have hq := Program.eq_take_of_course c
  have hle : q.length ≤ p.length := by
    have hlen := congrArg List.length hq
    rw [List.length_take] at hlen
    omega
  have hc : ∀ i ∈ q, i.missingCell? config.memorySize = none := fun i hi =>
    c.missingCell?_eq_none hi
  have hend := c.endingAt?_add_length
  rw [Nat.zero_add] at hend
  have hs := (State.Holds.zero config.memorySize).applyAll hc
  have hstart : ofProgram p config = .ok m := by
    rw [ofProgram, Program.toBytes_eq]
    exact hm
  refine ⟨m, q.length, hstart, hle, ?_, ?_, ?_⟩
  · intro j hj
    exact c.endingAt?_eq_none (Nat.zero_le j) (by omega)
  · rwa [← hq]
  · rw [← hq]
    rcases hrun with ⟨rfl, hr⟩ | ⟨error, rfl, hr⟩
    · have hk := eq_length_of_endingAt? hend
      rw [Program.length_stream] at hk
      rw [hr]
      exact ⟨Nat.eq_of_mul_eq_mul_right (by decide) hk, rfl, hs⟩
    · rw [hr]
      rcases endingAt?_cases hend with ⟨-, hh⟩ | ⟨error, hk, -⟩
      · cases hh
      · rw [Program.length_stream] at hk
        have hne : q.length ≠ p.length := fun hl => hk (congrArg (· * Record.size) hl)
        exact ⟨Nat.lt_of_le_of_ne hle hne, hend, rfl,
          State.map_instruction_journal (State.sized_zero _) hc 0, hs⟩

theorem exists_run_ofProgram_remainder :
    0 < 16 ∧ 16 ≤ 65536 ∧
      ∃ m r, ofProgram [.loadConst 1 45, .loadConst 2 6, .mod 10 1 2] ⟨16, none⟩ = .ok m ∧
        m.run = .ok r ∧ r.steps = 3 ∧ r.state.readMemory? 10 = some 3 := by
  refine ⟨by decide, by decide, ?_⟩
  obtain ⟨m, k, hm, -, -, -, hrun⟩ :=
    exists_run_ofProgram [.loadConst 1 45, .loadConst 2 6, .mod 10 1 2] ⟨16, none⟩ (by decide)
      (by decide)
  have hgoes : ∀ j < 3, endingAt? (Program.stream [.loadConst 1 45, .loadConst 2 6, .mod 10 1 2])
      ⟨16, none⟩ j = none := by
    decide
  cases hr : m.run with
  | ok r =>
    rw [hr] at hrun
    obtain ⟨rfl, hs, hstate⟩ := hrun
    exact ⟨m, r, hm, hr, hs, hstate.memory 10 (by decide)⟩
  | error f =>
    rw [hr] at hrun
    obtain ⟨hk, hfault, -⟩ := hrun
    cases (hgoes k hk).symm.trans hfault

end Machine

end RecordMachine
