import RecordMachine.Proofs.Replay
import RecordMachine.Proofs.Stepping
/-!
# Larger memories

An instruction whose cells exist does the same in a memory with further cells. A run that misses no
memory cell therefore gives the same in a larger memory, whose further cells stay zero.
-/
namespace RecordMachine

def MachineError.MissesMemory : MachineError → Prop
  | .missingCell _ _ .memory _ _ => True
  | _ => False

/-! ## What a larger memory leaves of the faults -/

section

variable {small large : Nat}

theorem Instruction.missingCell?_of_le {i : Instruction} (hle : small ≤ large)
    (h : ∀ index size, i.missingCell? small ≠ some (.memory, index, size)) :
    i.missingCell? large = i.missingCell? small := by
  rw [missingCell?_eq] at h
  rw [missingCell?_eq, missingCell?_eq]
  cases hr : i.missingRegister? with
  | some r => rfl
  | none =>
    cases ha : i.cellAddress? with
    | none => rfl
    | some a =>
      rw [hr, ha] at h
      have hlt : a.toNat < small := by
        apply Nat.lt_of_not_le
        intro hge
        apply h a.toNat small
        simp [Option.filter_some, hge]
      simp [Option.filter_some, Nat.not_le_of_lt hlt,
        Nat.not_le_of_lt (Nat.lt_of_lt_of_le hlt hle)]

theorem Record.fault?_of_le {r : Record} {offset : Nat} (hle : small ≤ large)
    (h : ∀ error, r.fault? small offset = some error → ¬error.MissesMemory) :
    r.fault? large offset = r.fault? small offset := by
  cases hd : r.decode with
  | error e => rw [fault?_of_decode_error hd, fault?_of_decode_error hd]
  | ok i =>
    rw [fault?_of_decode hd, fault?_of_decode hd, Instruction.missingCell?_of_le hle]
    intro index size hc
    rw [fault?_of_decode hd, hc] at h
    exact h _ rfl trivial

theorem endingAt?_of_le {stream : List UInt8} {maxSteps : Option Nat} {k : Nat}
    (hle : small ≤ large)
    (h : ∀ error, endingAt? stream ⟨small, maxSteps⟩ k = some (.fault error) →
      ¬error.MissesMemory) :
    endingAt? stream ⟨large, maxSteps⟩ k = endingAt? stream ⟨small, maxSteps⟩ k := by
  by_cases hk : k * Record.size = stream.length
  · simp [endingAt?, hk]
  · cases hl : maxSteps.filter (· ≤ k) with
    | some limit => simp [endingAt?, hk, hl]
    | none =>
      by_cases hs : stream.length - k * Record.size < Record.size
      · simp [endingAt?, hk, hl, hs]
      · cases hr : (Record.split stream).1[k]? with
        | none => simp [endingAt?, hk, hl, hs, hr]
        | some r =>
          simp only [endingAt?, if_neg hk, hl, if_neg hs, hr, Option.bind_some] at h ⊢
          rw [Record.fault?_of_le hle]
          intro error hf
          apply h error
          rw [hf]
          rfl

theorem Course.of_le {stream : List UInt8} {maxSteps : Option Nat} {p : Program} {ending : Ending}
    (c : Course stream ⟨small, maxSteps⟩ 0 p ending) (hle : small ≤ large)
    (h : ∀ error, ending = .fault error → ¬error.MissesMemory) :
    Course stream ⟨large, maxSteps⟩ 0 p ending := by
  apply c.congr
  · intro j hj
    apply endingAt?_of_le hle
    intro error he
    rcases Nat.lt_or_eq_of_le hj with hlt | rfl
    · rw [c.endingAt?_eq_none (Nat.zero_le _) (by omega)] at he
      cases he
    · rw [c.endingAt?_add_length] at he
      exact h error (Option.some.inj he)
  · intro j _
    rfl

end

/-! ## What it leaves of the cells -/

namespace State

/-- The state with further memory cells, which hold zero. -/
def grow (s : State) (count : Nat) : State :=
  { s with memory := s.memory ++ Array.replicate count 0 }

theorem grow_zero {small large : Nat} (hle : small ≤ large) :
    (zero small).grow (large - small) = zero large := by
  rw [grow, zero, zero, Array.replicate_append_replicate, Nat.add_sub_of_le hle]

variable {s : State} {memorySize : Nat}

theorem readRegister?_grow (s : State) (count : Nat) (r : UInt8) :
    (s.grow count).readRegister? r = s.readRegister? r := rfl

theorem readMemory?_grow (h : s.Sized memorySize) {a : UInt16} (ha : a.toNat < memorySize)
    (count : Nat) :
    (s.grow count).readMemory? a = s.readMemory? a :=
  Array.getElem?_append_left (h.memory.symm ▸ ha)

theorem setRegister_grow (s : State) (count : Nat) (r : UInt8) (value : Word) :
    (s.grow count).setRegister r value =
      ((s.setRegister r value).1.grow count, (s.setRegister r value).2) := rfl

theorem setMemory_grow (h : s.Sized memorySize) {a : UInt16} (ha : a.toNat < memorySize)
    (count : Nat) (value : Word) :
    (s.grow count).setMemory a value =
      ((s.setMemory a value).1.grow count, (s.setMemory a value).2) := by
  have hs : a.toNat < s.memory.size := h.memory.symm ▸ ha
  rw [setMemory, readMemory?_grow h ha, setMemory, writeMemory, writeMemory]
  simp only [grow, Array.setIfInBounds_append_left hs]

theorem apply_grow (h : s.Sized memorySize) {i : Instruction}
    (hc : i.missingCell? memorySize = none) (count : Nat) :
    (s.grow count).apply i = ((s.apply i).1.grow count, (s.apply i).2) := by
  obtain ⟨-, ha⟩ := Instruction.lt_of_missingCell?_eq_none hc
  cases i with
  | loadConst dst imm => rfl
  | readMem dst addr =>
    simp only [apply, readMemory?_grow h (ha addr rfl), setRegister_grow]
  | writeMem addr src =>
    simp only [apply, readRegister?_grow, setMemory_grow h (ha addr rfl)]
  | mod dstAddr aReg bReg =>
    simp only [apply, readRegister?_grow, setMemory_grow h (ha dstAddr rfl)]
    split
    · rfl
    · rfl

variable {p : Program}

theorem applyAll_grow (h : s.Sized memorySize) (hp : ∀ i ∈ p, i.missingCell? memorySize = none)
    (count : Nat) : (s.grow count).applyAll p = (s.applyAll p).grow count := by
  induction p generalizing s with
  | nil => rfl
  | cons i p ih =>
    obtain ⟨hi, hrest⟩ := List.forall_mem_cons.mp hp
    rw [applyAll, List.foldl_cons, apply_grow h hi]
    exact ih (h.apply i) hrest

theorem journal_grow (h : s.Sized memorySize) (hp : ∀ i ∈ p, i.missingCell? memorySize = none)
    (count k : Nat) : (s.grow count).journal k p = s.journal k p := by
  induction p generalizing s k with
  | nil => rfl
  | cons i p ih =>
    obtain ⟨hi, hrest⟩ := List.forall_mem_cons.mp hp
    rw [journal_cons, journal_cons, entries, apply_grow h hi, ih (h.apply i) hrest, entries]

end State

namespace Machine

/-- A run that halts does so in a larger memory, too, with the same journal and with zeros in the
further cells. So does a run that fails, unless it fails at a memory cell that is missing. -/
theorem exists_grown_run (stream : List UInt8) (maxSteps : Option Nat) {small large : Nat}
    (hpos : 0 < small) (hle : small ≤ large) (hmax : large ≤ 65536) :
    ∃ m m', start stream ⟨small, maxSteps⟩ = .ok m ∧ start stream ⟨large, maxSteps⟩ = .ok m' ∧
      (∀ r, m.run = .ok r → m'.run = .ok { r with state := r.state.grow (large - small) }) ∧
      ∀ f, m.run = .error f → ¬f.error.MissesMemory →
        m'.run = .error { f with state := f.state.grow (large - small) } := by
  have hpos' : 0 < large := Nat.lt_of_lt_of_le hpos hle
  have hmax' : small ≤ 65536 := Nat.le_trans hle hmax
  obtain ⟨m, hm, hat, -, hrun⟩ := exists_outcome stream ⟨small, maxSteps⟩ hpos hmax'
  obtain ⟨m', hm', -, -, hrun'⟩ := exists_outcome stream ⟨large, maxSteps⟩ hpos' hmax
  obtain ⟨p, ending, c⟩ := hat.exists_course
  have hsized := State.sized_zero small
  have hcells : ∀ i ∈ p, i.missingCell? small = none := fun i hi => c.missingCell?_eq_none hi
  have hstate := State.applyAll_grow hsized hcells (large - small)
  have hjournal := State.journal_grow hsized hcells (large - small) 0
  rw [State.grow_zero hle] at hstate hjournal
  refine ⟨m, m', hm, hm', ?_, ?_⟩
  · intro r hr
    rw [hrun p ending c] at hr
    cases ending with
    | halt =>
      cases hr
      rw [hrun' p .halt (c.of_le hle nofun), State.outcome, hstate, hjournal]
    | fault error => cases hr
  · intro f hf hmisses
    rw [hrun p ending c] at hf
    cases ending with
    | halt => cases hf
    | fault error =>
      cases hf
      have hother : ∀ e, Ending.fault error = .fault e → ¬e.MissesMemory := by
        rintro e ⟨⟩
        exact hmisses
      rw [hrun' p (.fault error) (c.of_le hle hother), State.outcome, hstate, hjournal]

/-- The third instruction names a register that no memory size makes up for. -/
theorem exists_grown_run_missingRegister :
    0 < 4 ∧ 4 ≤ 10 ∧ 10 ≤ 65536 ∧
      ∃ m m' f,
        start [6, 1, 0, 0, 0, 9, 12, 0, 3, 1, 0, 0, 14, 0, 2, 1, 70, 0] ⟨4, some 5⟩ = .ok m ∧
        start [6, 1, 0, 0, 0, 9, 12, 0, 3, 1, 0, 0, 14, 0, 2, 1, 70, 0] ⟨10, some 5⟩ = .ok m' ∧
        m.run = .error f ∧ f.error = .missingCell 12 .mod .registers 70 64 ∧
        m'.run = .error { f with state := f.state.grow 6 } := by
  refine ⟨by decide, by decide, by decide, ?_⟩
  obtain ⟨m, m', hm, hm', -, hfails⟩ :=
    exists_grown_run [6, 1, 0, 0, 0, 9, 12, 0, 3, 1, 0, 0, 14, 0, 2, 1, 70, 0] (some 5)
      (by decide : 0 < 4) (by decide : 4 ≤ 10) (by decide)
  have hsteps : (m.stepped 0).step.1 = .ok .running ∧ (m.stepped 1).step.1 = .ok .running ∧
      (m.stepped 2).step.1 = .error (.missingCell 12 .mod .registers 70 64) := by
    cases hm
    exact ⟨rfl, rfl, rfl⟩
  obtain ⟨hzero, hone, htwo⟩ := hsteps
  have hruns : ∀ j < 2, ∃ status, (m.stepped j).step.1 = .ok status := by
    intro j hj
    match j, hj with
    | 0, _ => exact ⟨_, hzero⟩
    | 1, _ => exact ⟨_, hone⟩
  have hrun := run_of_stepped_error hruns htwo
  exact ⟨m, m', _, hm, hm', hrun, rfl, hfails _ hrun id⟩

end Machine

end RecordMachine
