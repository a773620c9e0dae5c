import RecordMachine.Proofs.Atomicity
/-!
# Footprints

The registers that an instruction reads and its memory cell are all that it depends on, and the
register that it writes, or else its cell, is all that it changes. So two instructions may change
places if neither writes where the other looks.
-/
namespace RecordMachine

namespace Instruction

def writtenPlace? (i : Instruction) : Option Place :=
  (i.registerWritten?.map fun r => .register r.toNat).or
    (i.cellAddress?.map fun a => .memory a.toNat)

theorem writtenPlace?_eq (i : Instruction) : i.writtenPlace? = some i.target := by
  cases i <;> rfl

/-- Neither instruction writes a place that the other names. -/
structure Independent (i j : Instruction) : Prop where
  left : ∀ place, i.writtenPlace? = some place → place ∉ j.footprint
  right : ∀ place, j.writtenPlace? = some place → place ∉ i.footprint

theorem Independent.symm {i j : Instruction} (h : i.Independent j) : j.Independent i :=
  ⟨h.right, h.left⟩

theorem Independent.target_ne {i j : Instruction} (h : i.Independent j) : i.target ≠ j.target := by
  intro he
  exact h.left i.target i.writtenPlace?_eq (he ▸ j.target_mem_footprint)

end Instruction

namespace State

variable {s t : State} {i j : Instruction}

/-- The states have the same cells, and the instruction finds the same words in them. -/
structure AgreeOn (i : Instruction) (s t : State) : Prop where
  registers : s.registers.size = t.registers.size
  memory : s.memory.size = t.memory.size
  read : ∀ r ∈ i.registersRead, s.readRegister? r = t.readRegister? r
  cell : ∀ a ∈ i.cellAddress?, s.readMemory? a = t.readMemory? a

namespace AgreeOn

theorem has_iff (h : AgreeOn i s t) (place : Place) : s.Has place ↔ t.Has place := by
  cases place with
  | register index => rw [Has, Has, h.registers]
  | memory index => rw [Has, Has, h.memory]

theorem checkCells (h : AgreeOn i s t) (offset : Nat) :
    s.checkCells i offset = t.checkCells i offset := by
  simp only [State.checkCells, hasRegister, hasAddress, h.registers, h.memory]

theorem word_register (h : AgreeOn i s t) {r : UInt8} (hr : r ∈ i.registersRead) :
    s.word (.register r.toNat) = t.word (.register r.toNat) :=
  congrArg (·.getD 0) (h.read r hr)

theorem word_memory (h : AgreeOn i s t) {a : UInt16} (ha : i.cellAddress? = some a) :
    s.word (.memory a.toNat) = t.word (.memory a.toNat) :=
  congrArg (·.getD 0) (h.cell a ha)

theorem result (h : AgreeOn i s t) : i.result s.word = i.result t.word := by
  cases i with
  | loadConst dst imm => rfl
  | readMem dst addr => rw [Instruction.result, h.word_memory rfl, Instruction.result]
  | writeMem addr src =>
    rw [Instruction.result, h.word_register List.mem_cons_self, Instruction.result]
  | mod dstAddr aReg bReg =>
    rw [Instruction.result, h.word_register List.mem_cons_self,
      h.word_register (List.mem_cons_of_mem _ List.mem_cons_self), Instruction.result]

end AgreeOn

theorem agreeOn_setWord {place : Place} (h : place ∉ i.footprint) (value : Word) :
    AgreeOn i (s.setWord place value) s where
  registers := size_registers_setWord s place value
  memory := size_memory_setWord s place value
  read r hr := by
    have hmem : Place.register r.toNat ∈ i.footprint :=
      List.mem_append_left _ (List.mem_append_left _ (List.mem_map_of_mem hr))
    have hne : Place.register r.toNat ≠ place := fun he => h (he ▸ hmem)
    exact word?_setWord_of_ne hne value
  cell a ha := by
    have hmem : Place.memory a.toNat ∈ i.footprint :=
      List.mem_append_right _ (List.mem_map_of_mem (Option.mem_toList.mpr ha))
    have hne : Place.memory a.toNat ≠ place := fun he => h (he ▸ hmem)
    exact word?_setWord_of_ne hne value

/-- The instruction takes the state to another one, wherever its record stands. -/
def Leads (s : State) (i : Instruction) (t : State) : Prop :=
  ∀ offset step, ∃ journal, s.execute i offset step = .ok (t, journal)

theorem leads_of_has (h : ∀ place ∈ i.footprint, s.Has place) :
    s.Leads i (s.setWord i.target (i.result s.word).1) :=
  fun offset step => ⟨_, execute_of_has h offset step⟩

theorem leads_setWord_of_independent (h : i.Independent j) (hj : ∀ place ∈ j.footprint, s.Has place)
    (value : Word) :
    (s.setWord i.target value).Leads j
      ((s.setWord i.target value).setWord j.target (j.result s.word).1) := by
  have hagree : AgreeOn j (s.setWord i.target value) s :=
    agreeOn_setWord (h.left i.target i.writtenPlace?_eq) value
  have hhas : ∀ place ∈ j.footprint, (s.setWord i.target value).Has place :=
    fun place hp => (has_setWord value).mpr (hj place hp)
  rw [← hagree.result]
  exact leads_of_has hhas

/-- The footprint of an instruction is complete. In two states that agree on it the instruction
fails with the same error, or writes the same value to the same place with the same notice, if there
is one. Therefore independent instructions may be executed in either order. -/
theorem footprint_complete (i : Instruction) :
    (∀ (s t : State) (offset step : Nat), AgreeOn i s t →
      match s.execute i offset step, t.execute i offset step with
      | .error error, .error error' => error = error'
      | .ok (after, journal), .ok (after', journal') =>
          ∃ place old old' new e e' notices, i.writtenPlace? = some place ∧
            journal = e :: notices ∧ journal' = e' :: notices ∧
            (∀ notice ∈ notices, notice.isNotice = true) ∧
            e.effect.change? = some (place, old, new) ∧
            e'.effect.change? = some (place, old', new) ∧
            s.Overwrites place old new after ∧ t.Overwrites place old' new after'
      | _, _ => False) ∧
    ∀ (j : Instruction) (s : State), i.Independent j → (∀ place ∈ i.footprint, s.Has place) →
      (∀ place ∈ j.footprint, s.Has place) →
      ∃ mid mid' final,
        s.Leads i mid ∧ mid.Leads j final ∧ s.Leads j mid' ∧ mid'.Leads i final := by
  refine ⟨fun s t offset step h => ?_, fun j s hind hi hj => ?_⟩
  · cases hc : s.checkCells i offset with
    | error error =>
      have hc' := h.checkCells offset
      rw [hc] at hc'
      rw [execute_of_checkCells hc, execute_of_checkCells hc'.symm]
    | ok u =>
      have hs := checkCells_eq_ok_iff.mp hc
      have ht : ∀ place ∈ i.footprint, t.Has place := fun place hp =>
        (h.has_iff place).mp (hs place hp)
      have htarget := i.target_mem_footprint
      rw [execute_of_has hs, execute_of_has ht, h.result]
      refine ⟨i.target, _, _, (i.result t.word).1, _, _, _, i.writtenPlace?_eq, rfl, rfl, ?_,
        i.change?_change _ _, i.change?_change _ _, overwrites_setWord (hs _ htarget) _,
        overwrites_setWord (ht _ htarget) _⟩
      exact fun notice hn => isNotice_of_mem_notices hn
  · -- In both orders each target gets the value that its instruction computes in `s`.
    have hfinal := setWord_comm s hind.target_ne (i.result s.word).1 (j.result s.word).1
    refine ⟨_, _, _, leads_of_has hi, leads_setWord_of_independent hind hj _, leads_of_has hj, ?_⟩
    rw [hfinal]
    exact leads_setWord_of_independent hind.symm hi _

theorem footprint_complete_division :
    Instruction.Independent (.mod 3 1 2) (.loadConst 0 7) ∧
      ∃ mid mid' final,
        Leads ⟨#[9, 7, 0], #[1, 2, 3, 4]⟩ (.mod 3 1 2) mid ∧ mid.Leads (.loadConst 0 7) final ∧
        Leads ⟨#[9, 7, 0], #[1, 2, 3, 4]⟩ (.loadConst 0 7) mid' ∧
        mid'.Leads (.mod 3 1 2) final := by
  have hind : Instruction.Independent (.mod 3 1 2) (.loadConst 0 7) := by
    constructor
    · rintro place ⟨⟩
      decide
    · rintro place ⟨⟩
      decide
  exact ⟨hind, (footprint_complete (.mod 3 1 2)).2 _ _ hind (by decide) (by decide)⟩

end State

end RecordMachine
