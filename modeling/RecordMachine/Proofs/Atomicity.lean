import RecordMachine.Machine.Execution
import RecordMachine.Proofs.Place
/-!
# Instructions as a whole or not at all

An instruction names a few cells. If one of them does not exist nothing is done. Else one cell is
overwritten, with a value that depends on the named cells only, and all others stay as they are. A
procedure that works on the state in place, and that gives up at a cell that does not exist, does
the same.
-/
namespace RecordMachine

def Effect.change? : Effect → Option (Place × Word × Word)
  | .registerWrite register before after => some (.register register.toNat, before, after)
  | .memoryWrite address before after => some (.memory address.toNat, before, after)
  | .divisionByZero .. => none

namespace Instruction

/-- The places that an instruction names: what it reads, the register that it writes, its cell. -/
def footprint (i : Instruction) : List Place :=
  i.registersRead.map (fun r => .register r.toNat) ++
    i.registerWritten?.toList.map (fun r => .register r.toNat) ++
    i.cellAddress?.toList.map (fun a => .memory a.toNat)

@[simp] theorem footprint_loadConst (dst : UInt8) (imm : UInt32) :
    (loadConst dst imm).footprint = [.register dst.toNat] := rfl

@[simp] theorem footprint_readMem (dst : UInt8) (addr : UInt16) :
    (readMem dst addr).footprint = [.register dst.toNat, .memory addr.toNat] := rfl

@[simp] theorem footprint_writeMem (addr : UInt16) (src : UInt8) :
    (writeMem addr src).footprint = [.register src.toNat, .memory addr.toNat] := rfl

@[simp] theorem footprint_mod (dstAddr : UInt16) (aReg bReg : UInt8) :
    (mod dstAddr aReg bReg).footprint =
      [.register aReg.toNat, .register bReg.toNat, .memory dstAddr.toNat] := rfl

def target : Instruction → Place
  | .loadConst dst _ | .readMem dst _ => .register dst.toNat
  | .writeMem addr _ | .mod addr _ _ => .memory addr.toNat

/-- The value that an instruction writes, and its notice if it divides by zero, by the words that
it finds. -/
def result (i : Instruction) (words : Place → Word) : Word × List Effect :=
  match i with
  | .loadConst _ imm => (imm, [])
  | .readMem _ addr => (words (.memory addr.toNat), [])
  | .writeMem _ src => (words (.register src.toNat), [])
  | .mod dstAddr aReg bReg =>
    let a := words (.register aReg.toNat)
    let b := words (.register bReg.toNat)
    if b = 0 then (0, [.divisionByZero dstAddr a]) else (a % b, [])

theorem result_mod_of_eq_zero {words : Place → Word} {dstAddr : UInt16} {aReg bReg : UInt8}
    (h : words (.register bReg.toNat) = 0) :
    (mod dstAddr aReg bReg).result words =
      (0, [.divisionByZero dstAddr (words (.register aReg.toNat))]) := if_pos h

theorem result_mod_of_ne_zero {words : Place → Word} {dstAddr : UInt16} {aReg bReg : UInt8}
    (h : words (.register bReg.toNat) ≠ 0) :
    (mod dstAddr aReg bReg).result words =
      (words (.register aReg.toNat) % words (.register bReg.toNat), []) := if_neg h

def change (i : Instruction) (before after : Word) : Effect :=
  match i with
  | .loadConst dst _ | .readMem dst _ => .registerWrite dst before after
  | .writeMem addr _ | .mod addr _ _ => .memoryWrite addr before after

theorem change?_change (i : Instruction) (before after : Word) :
    (i.change before after).change? = some (i.target, before, after) := by
  cases i <;> rfl

theorem isNotice_of_mem_result {i : Instruction} {words : Place → Word} {effect : Effect}
    (h : effect ∈ (i.result words).2) : effect.isNotice = true := by
  cases i with
  | loadConst dst imm => cases h
  | readMem dst addr => cases h
  | writeMem addr src => cases h
  | mod dstAddr aReg bReg =>
    simp only [result] at h
    split at h
    · rw [List.mem_singleton.mp h]
      rfl
    · cases h

theorem target_mem_footprint (i : Instruction) : i.target ∈ i.footprint := by
  cases i <;> simp [target]

end Instruction

namespace State

variable {s : State} {i : Instruction}

theorem apply_eq (s : State) (i : Instruction) :
    s.apply i = (s.setWord i.target (i.result s.word).1,
      i.change (s.word i.target) (i.result s.word).1 :: (i.result s.word).2) := by
  cases i with
  | loadConst dst imm => rfl
  | readMem dst addr => rfl
  | writeMem addr src => rfl
  | mod dstAddr aReg bReg =>
    by_cases hz : s.word (.register bReg.toNat) = 0
    · have happly : s.apply (.mod dstAddr aReg bReg) = ((s.setMemory dstAddr 0).1,
          [(s.setMemory dstAddr 0).2, .divisionByZero dstAddr (s.word (.register aReg.toNat))]) :=
        if_pos hz
      rw [happly, Instruction.result_mod_of_eq_zero hz]
      rfl
    · have happly : s.apply (.mod dstAddr aReg bReg) =
          let value := s.word (.register aReg.toNat) % s.word (.register bReg.toNat)
          ((s.setMemory dstAddr value).1, [(s.setMemory dstAddr value).2]) := if_neg hz
      rw [happly, Instruction.result_mod_of_ne_zero hz]
      rfl

theorem forall_mem_footprint_iff :
    (∀ place ∈ i.footprint, s.Has place) ↔
      (∀ r ∈ checkedRegisters i, s.hasRegister r = true) ∧
        ∀ a ∈ i.cellAddress?, s.hasAddress a = true := by
  simp only [Instruction.footprint, checkedRegisters, List.forall_mem_append, List.forall_mem_map,
    Option.mem_toList, hasRegister, hasAddress, decide_eq_true_eq]
  exact Iff.rfl

theorem checkCells_eq_ok_iff {offset : Nat} :
    s.checkCells i offset = .ok () ↔ ∀ place ∈ i.footprint, s.Has place := by
  rw [forall_mem_footprint_iff, checkCells]
  -- The registers come first, so the memory cell matters only where no register is missing.
  cases hr : (checkedRegisters i).find? (!s.hasRegister ·) with
  | some register =>
    have hmem := List.mem_of_find?_eq_some hr
    have hmissing := List.find?_some hr
    simp only [reduceCtorEq, false_iff, not_and]
    intro hall
    simp [hall register hmem] at hmissing
  | none =>
    have hall : ∀ r ∈ checkedRegisters i, s.hasRegister r = true := by
      simpa using List.find?_eq_none.mp hr
    cases ha : i.cellAddress? with
    | none => simpa using hall
    | some a =>
      cases hm : s.hasAddress a with
      | true => simpa [Option.filter_some, hm] using hall
      | false => simp [Option.filter_some, hm]

theorem exists_execute_eq_error_iff {offset step : Nat} :
    (∃ error, s.execute i offset step = .error error) ↔ ∃ place ∈ i.footprint, ¬s.Has place := by
  have hiff : (∃ place ∈ i.footprint, ¬s.Has place) ↔ s.checkCells i offset ≠ .ok () := by
    rw [ne_eq, checkCells_eq_ok_iff]
    simp only [Classical.not_forall, exists_prop]
  rw [hiff, execute]
  cases s.checkCells i offset with
  | error error => simp [bind, Except.bind]
  | ok u => simp [bind, Except.bind, pure, Except.pure]

theorem execute_of_checkCells {error : MachineError} {offset step : Nat}
    (h : s.checkCells i offset = .error error) : s.execute i offset step = .error error := by
  rw [execute, h]
  rfl

theorem execute_of_has (h : ∀ place ∈ i.footprint, s.Has place) (offset step : Nat) :
    s.execute i offset step = .ok (s.setWord i.target (i.result s.word).1,
      (i.change (s.word i.target) (i.result s.word).1 :: (i.result s.word).2).map
        fun effect => ⟨step, offset, i, effect⟩) := by
  rw [execute, checkCells_eq_ok_iff.mpr h, apply_eq]
  rfl

theorem isNotice_of_mem_notices {offset step : Nat} {notice : JournalEntry}
    (h : notice ∈ (i.result s.word).2.map fun effect => ⟨step, offset, i, effect⟩) :
    notice.isNotice = true := by
  obtain ⟨effect, he, rfl⟩ := List.mem_map.mp h
  exact Instruction.isNotice_of_mem_result he

end State

/-- Procedures that work on the state in place. What is changed before an error stays changed; no
error of the machine is given where an access misses. -/
abbrev InPlace := ExceptT (Option MachineError) (StateM State)

namespace InPlace

variable {s t : State} {place : Place}

def read (place : Place) : InPlace Word := do
  match (← get).word? place with
  | some value => return value
  | none => throw none

def exchange (place : Place) (value : Word) : InPlace Word := do
  let before ← read place
  modify (·.setWord place value)
  return before

def checkCells (i : Instruction) (offset : Nat) : InPlace Unit := do
  match (← get).checkCells i offset with
  | .ok () => return
  | .error error => throw (some error)

def effects : Instruction → InPlace (List Effect)
  | .loadConst dst imm => do
    let before ← exchange (.register dst.toNat) imm
    return [.registerWrite dst before imm]
  | .readMem dst addr => do
    let value ← read (.memory addr.toNat)
    let before ← exchange (.register dst.toNat) value
    return [.registerWrite dst before value]
  | .writeMem addr src => do
    let value ← read (.register src.toNat)
    let before ← exchange (.memory addr.toNat) value
    return [.memoryWrite addr before value]
  | .mod dstAddr aReg bReg => do
    let a ← read (.register aReg.toNat)
    let b ← read (.register bReg.toNat)
    if b = 0 then
      let before ← exchange (.memory dstAddr.toNat) 0
      return [.memoryWrite dstAddr before 0, .divisionByZero dstAddr a]
    else
      let before ← exchange (.memory dstAddr.toNat) (a % b)
      return [.memoryWrite dstAddr before (a % b)]

/-- All cells are checked before the first access. -/
def execute (i : Instruction) (offset step : Nat) : InPlace Journal := do
  checkCells i offset
  return (← effects i).map fun effect => ⟨step, offset, i, effect⟩

theorem run_bind {α β : Type} {x : InPlace α} {a : α} (h : x.run.run s = (.ok a, t))
    (f : α → InPlace β) : (x >>= f).run.run s = (f a).run.run t := by
  rw [ExceptT.run_bind, StateT.run_bind, h]
  rfl

theorem run_read (h : s.Has place) : (read place).run.run s = (.ok (s.word place), s) := by
  have hg : (get : InPlace State).run.run s = (.ok s, s) := rfl
  rw [read, run_bind hg, State.word?_eq_some h]
  rfl

theorem run_exchange (h : s.Has place) (value : Word) :
    (exchange place value).run.run s = (.ok (s.word place), s.setWord place value) := by
  rw [exchange, run_bind (run_read h)]
  rfl

theorem run_effects {i : Instruction} (h : ∀ place ∈ i.footprint, s.Has place) :
    (effects i).run.run s = (.ok (i.change (s.word i.target) (i.result s.word).1 ::
      (i.result s.word).2), s.setWord i.target (i.result s.word).1) := by
  cases i with
  | loadConst dst imm =>
    have hd : s.Has (.register dst.toNat) := h _ (by simp)
    rw [effects, run_bind (run_exchange hd imm)]
    rfl
  | readMem dst addr =>
    have hd : s.Has (.register dst.toNat) := h _ (by simp)
    have ha : s.Has (.memory addr.toNat) := h _ (by simp)
    rw [effects, run_bind (run_read ha), run_bind (run_exchange hd _)]
    rfl
  | writeMem addr src =>
    have hs : s.Has (.register src.toNat) := h _ (by simp)
    have ha : s.Has (.memory addr.toNat) := h _ (by simp)
    rw [effects, run_bind (run_read hs), run_bind (run_exchange ha _)]
    rfl
  | mod dstAddr aReg bReg =>
    have ha : s.Has (.register aReg.toNat) := h _ (by simp)
    have hb : s.Has (.register bReg.toNat) := h _ (by simp)
    have hd : s.Has (.memory dstAddr.toNat) := h _ (by simp)
    rw [effects, run_bind (run_read ha), run_bind (run_read hb)]
    by_cases hz : s.word (.register bReg.toNat) = 0
    · rw [if_pos hz, run_bind (run_exchange hd 0), Instruction.result_mod_of_eq_zero hz]
      rfl
    · rw [if_neg hz, run_bind (run_exchange hd _), Instruction.result_mod_of_ne_zero hz]
      rfl

/-- Working in place gives the state and the journal that the execution gives. It does not miss a
cell, and it leaves the state as it was if it fails. -/
theorem run_execute (s : State) (i : Instruction) (offset step : Nat) :
    (execute i offset step).run.run s =
      match s.execute i offset step with
      | .ok (after, journal) => (.ok journal, after)
      | .error error => (.error (some error), s) := by
  have hg : (get : InPlace State).run.run s = (.ok s, s) := rfl
  cases hc : s.checkCells i offset with
  | error error =>
    have hrun : (checkCells i offset).run.run s = (.error (some error), s) := by
      rw [checkCells, run_bind hg, hc]
      rfl
    rw [State.execute_of_checkCells hc, execute, ExceptT.run_bind, StateT.run_bind, hrun]
    rfl
  | ok u =>
    have hrun : (checkCells i offset).run.run s = (.ok (), s) := by
      rw [checkCells, run_bind hg, hc]
      rfl
    have hall := State.checkCells_eq_ok_iff.mp hc
    rw [State.execute_of_has hall, execute, run_bind hrun, run_bind (run_effects hall)]
    rfl

end InPlace

namespace State

/-- An instruction is executed as a whole or not at all. It fails exactly if one of the places that
it names does not exist, and then the state stays as it was. Else no access misses its place, and
the one word that the first entry tells of is overwritten; any other entry is a notice. -/
theorem execute_all_or_nothing (s : State) (i : Instruction) (offset step : Nat) :
    ((∃ error, s.execute i offset step = .error error) ↔ ∃ place ∈ i.footprint, ¬s.Has place) ∧
    match s.execute i offset step with
    | .error error => (InPlace.execute i offset step).run.run s = (.error (some error), s)
    | .ok (after, journal) =>
        (InPlace.execute i offset step).run.run s = (.ok journal, after) ∧
        (∀ place ∈ i.footprint, ∃ value, s.word? place = some value) ∧
        (∃ e notices place old new, journal = e :: notices ∧
          e.effect.change? = some (place, old, new) ∧ s.Overwrites place old new after ∧
          ∀ notice ∈ notices, notice.isNotice = true) ∧
        ∀ e ∈ journal, e.step = step ∧ e.offset = offset ∧ e.instruction = i := by
  refine ⟨exists_execute_eq_error_iff, ?_⟩
  have hrun := InPlace.run_execute s i offset step
  by_cases h : ∀ place ∈ i.footprint, s.Has place
  · rw [execute_of_has h] at hrun ⊢
    have hw := overwrites_setWord (h _ i.target_mem_footprint) (i.result s.word).1
    refine ⟨hrun, fun place hp => ⟨_, word?_eq_some (h place hp)⟩, ⟨_, _, i.target, _, _, rfl,
      i.change?_change _ _, hw, fun notice hn => isNotice_of_mem_notices hn⟩, fun e he => ?_⟩
    obtain ⟨effect, -, rfl⟩ := List.mem_map.mp he
    exact ⟨rfl, rfl, rfl⟩
  · obtain ⟨error, he⟩ := exists_execute_eq_error_iff.mpr (by simpa using h)
    rw [he] at hrun ⊢
    exact hrun

end State

end RecordMachine
