import RecordMachine.Machine.State
/-!
# Places of a state

A place is a register or a memory cell. The words of a state are read and overwritten by place, one
at a time.
-/
namespace RecordMachine

inductive Place
  | register (index : Nat)
  | memory (index : Nat)
  deriving DecidableEq, Repr

namespace State

variable {s t : State} {place other : Place}

def Has (s : State) : Place → Prop
  | .register index => index < s.registers.size
  | .memory index => index < s.memory.size

instance (s : State) (place : Place) : Decidable (s.Has place) :=
  match place with
  | .register index => Nat.decLt index s.registers.size
  | .memory index => Nat.decLt index s.memory.size

def word? (s : State) : Place → Option Word
  | .register index => s.registers[index]?
  | .memory index => s.memory[index]?

/-- The word at a place, zero where there is none. -/
def word (s : State) (place : Place) : Word := (s.word? place).getD 0

def setWord (s : State) (place : Place) (value : Word) : State :=
  match place with
  | .register index => { s with registers := s.registers.setIfInBounds index value }
  | .memory index => { s with memory := s.memory.setIfInBounds index value }

theorem word?_eq_some (h : s.Has place) : s.word? place = some (s.word place) := by
  cases place with
  | register index => rw [word, word?, Array.getElem?_eq_getElem h, Option.getD_some]
  | memory index => rw [word, word?, Array.getElem?_eq_getElem h, Option.getD_some]

@[simp] theorem size_registers_setWord (s : State) (place : Place) (value : Word) :
    (s.setWord place value).registers.size = s.registers.size := by
  cases place with
  | register index => exact Array.size_setIfInBounds
  | memory index => rfl

@[simp] theorem size_memory_setWord (s : State) (place : Place) (value : Word) :
    (s.setWord place value).memory.size = s.memory.size := by
  cases place with
  | register index => rfl
  | memory index => exact Array.size_setIfInBounds

theorem has_setWord (value : Word) : (s.setWord place value).Has other ↔ s.Has other := by
  cases other with
  | register index => rw [Has, size_registers_setWord, Has]
  | memory index => rw [Has, size_memory_setWord, Has]

theorem word?_setWord_self (h : s.Has place) (value : Word) :
    (s.setWord place value).word? place = some value := by
  cases place with
  | register index => exact Array.getElem?_setIfInBounds_self_of_lt h
  | memory index => exact Array.getElem?_setIfInBounds_self_of_lt h

theorem word?_setWord_of_ne (h : other ≠ place) (value : Word) :
    (s.setWord place value).word? other = s.word? other := by
  cases place with
  | register index =>
    cases other with
    | register j =>
      have hne : index ≠ j := fun he => h (congrArg Place.register he.symm)
      exact Array.getElem?_setIfInBounds_ne hne
    | memory j => rfl
  | memory index =>
    cases other with
    | register j => rfl
    | memory j =>
      have hne : index ≠ j := fun he => h (congrArg Place.memory he.symm)
      exact Array.getElem?_setIfInBounds_ne hne

theorem setWord_comm (s : State) {place other : Place} (h : place ≠ other) (value value' : Word) :
    (s.setWord place value).setWord other value' =
      (s.setWord other value').setWord place value := by
  cases place with
  | register index =>
    cases other with
    | register j =>
      have hne : index ≠ j := fun he => h (congrArg Place.register he)
      simp only [setWord, Array.setIfInBounds_comm value value' hne]
    | memory j => rfl
  | memory index =>
    cases other with
    | register j => rfl
    | memory j =>
      have hne : index ≠ j := fun he => h (congrArg Place.memory he)
      simp only [setWord, Array.setIfInBounds_comm value value' hne]

/-- One word is overwritten and nothing else changes. -/
structure Overwrites (s : State) (place : Place) (before after : Word) (t : State) : Prop where
  before : s.word? place = some before
  after : t.word? place = some after
  frame : ∀ other, other ≠ place → t.word? other = s.word? other
  registers : t.registers.size = s.registers.size
  memory : t.memory.size = s.memory.size

theorem overwrites_setWord (h : s.Has place) (value : Word) :
    s.Overwrites place (s.word place) value (s.setWord place value) where
  before := word?_eq_some h
  after := word?_setWord_self h value
  frame _ hne := word?_setWord_of_ne hne value
  registers := size_registers_setWord s place value
  memory := size_memory_setWord s place value

end State

end RecordMachine
