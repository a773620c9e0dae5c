import Mathlib.Logic.Function.Iterate
import RecordMachine.Proofs.Run
/-!
# Single steps

A machine that is stepped by hand stays well placed in its stream, however often it is stepped and
wherever it stops. A step that fails changes nothing but the status, and a machine that has stopped
is not changed at all. The steps execute the instructions of the run one by one, so the run may be
begun by hand.
-/
namespace RecordMachine

namespace Machine

/-- The machine after the given number of steps, whatever the steps answer. -/
def stepped (m : Machine) (n : Nat) : Machine := (fun m => m.step.2)^[n] m

@[simp] theorem stepped_zero (m : Machine) : m.stepped 0 = m := rfl

theorem stepped_succ (m : Machine) (n : Nat) : m.stepped (n + 1) = (m.stepped n).step.2 :=
  Function.iterate_succ_apply' _ n m

theorem stepped_step (m : Machine) (n : Nat) : m.step.2.stepped n = m.stepped (n + 1) := rfl

theorem stepped_add (m : Machine) (n j : Nat) : m.stepped (n + j) = (m.stepped n).stepped j := by
  rw [Nat.add_comm]
  exact Function.iterate_add_apply _ j n m

/-- A machine that was started in front of the stream, at whatever point it is. -/
structure Reached (m : Machine) (stream : List UInt8) (config : Config) : Prop where
  unread : m.unread = stream.drop m.offset
  offset : m.offset = m.steps * Record.size
  offset_le : m.offset ≤ stream.length
  steps_le : ∀ limit ∈ config.maxSteps, m.steps ≤ limit
  maxSteps : m.maxSteps = config.maxSteps
  sized : m.state.Sized config.memorySize
  halted : m.status = .halted → m.offset = stream.length

theorem At.reached {m : Machine} {stream : List UInt8} {config : Config} {k : Nat}
    (h : m.At stream config k) (hk : ∀ limit ∈ config.maxSteps, k ≤ limit) :
    m.Reached stream config where
  unread := h.offset ▸ h.unread
  offset := by rw [h.offset, h.steps]
  offset_le := h.offset ▸ h.offset_le
  steps_le := h.steps ▸ hk
  maxSteps := h.maxSteps
  sized := h.sized
  halted := by
    intro hs
    have hr := h.ready
    rw [hs] at hr
    cases hr

theorem status_of_start {stream : List UInt8} {config : Config} {m : Machine}
    (h : start stream config = .ok m) : m.status = .ready := by
  cases hv : config.validate with
  | error e =>
    rw [start, hv] at h
    cases h
  | ok u =>
    rw [start, hv] at h
    cases h
    rfl

theorem step_of_hasStopped {m : Machine} (h : m.status.hasStopped = true) :
    m.step = (.ok m.status, m) := by
  rw [step, if_pos h]

theorem stepped_of_hasStopped {m : Machine} (h : m.status.hasStopped = true) (n : Nat) :
    m.stepped n = m := by
  induction n with
  | zero => rfl
  | succ n ih => rw [stepped_succ, ih, step_of_hasStopped h]

theorem step_eq_ok_cases {m next : Machine} {status : Status} (h : m.step = (.ok status, next)) :
    (m.status.hasStopped = true ∧ next = m) ∨
      (status = .halted ∧ next = { m with status := .halted }) ∨ status = .running := by
  rw [step] at h
  split at h
  next hs => exact .inl ⟨hs, (Prod.mk.inj h).2.symm⟩
  next =>
    split at h
    next =>
      obtain ⟨hstatus, hnext⟩ := Prod.mk.inj h
      exact .inr (.inl ⟨(Except.ok.inj hstatus).symm, hnext.symm⟩)
    next =>
      split at h
      next => exact .inr (.inr (Except.ok.inj (Prod.mk.inj h).1).symm)
      next => cases (Prod.mk.inj h).1

theorem run_step {m next : Machine} {status : Status} (h : m.step = (.ok status, next)) :
    next.run = m.run := by
  rcases step_eq_ok_cases h with ⟨-, rfl⟩ | ⟨rfl, rfl⟩ | rfl
  · rfl
  · rw [run_of_halted h]
    exact run_of_halted (step_of_hasStopped rfl)
  · exact (run_of_running h).symm

theorem run_stepped {m : Machine} {n : Nat}
    (h : ∀ j < n, ∃ status, (m.stepped j).step.1 = .ok status) : (m.stepped n).run = m.run := by
  induction n with
  | zero => rfl
  | succ n ih =>
    obtain ⟨status, hs⟩ := h n (Nat.lt_succ_self n)
    rw [stepped_succ, run_step (Prod.ext hs rfl)]
    exact ih fun j hj => h j (Nat.lt_succ_of_lt hj)

theorem run_of_stepped_error {m : Machine} {n : Nat} {error : MachineError}
    (h : ∀ j < n, ∃ status, (m.stepped j).step.1 = .ok status)
    (he : (m.stepped n).step.1 = .error error) :
    m.run = .error ⟨(m.stepped (n + 1)).offset, error, (m.stepped (n + 1)).journal.toList,
      (m.stepped (n + 1)).state⟩ := by
  rw [← run_stepped h, stepped_succ]
  exact run_of_error (Prod.ext he rfl)

namespace Reached

variable {m : Machine} {stream : List UInt8} {config : Config}

theorem place (h : m.Reached stream config) (hs : m.status.hasStopped = false) :
    m.At stream config m.steps where
  unread := h.offset ▸ h.unread
  offset := h.offset
  offset_le := h.offset ▸ h.offset_le
  steps := rfl
  maxSteps := h.maxSteps
  sized := h.sized
  ready := hs

theorem setStatus (h : m.Reached stream config) {status : Status}
    (hs : status = .halted → m.offset = stream.length) :
    Reached { m with status } stream config :=
  ⟨h.unread, h.offset, h.offset_le, h.steps_le, h.maxSteps, h.sized, hs⟩

/-- Everything that a step can do to a machine that may have stopped. -/
theorem step_cases (h : m.Reached stream config) :
    (m.status.hasStopped = true ∧ m.step = (.ok m.status, m)) ∨
      (m.status.hasStopped = false ∧ m.offset = stream.length ∧
        m.step = (.ok .halted, { m with status := .halted })) ∨
      (m.status.hasStopped = false ∧
        ∃ error, m.step = (.error error, { m with status := .faulted error })) ∨
      (m.status.hasStopped = false ∧
        ∃ i, m.step = (.ok .running, m.after i) ∧ (m.after i).Reached stream config) := by
  cases hs : m.status.hasStopped with
  | true => exact .inl ⟨rfl, step_of_hasStopped hs⟩
  | false =>
    right
    rcases (h.place hs).step_cases with ⟨he, hm⟩ | ⟨error, -, hm⟩ | ⟨i, hn, -, -, hm, ha⟩
    · refine .inl ⟨rfl, ?_, hm⟩
      rcases endingAt?_cases he with ⟨hk, -⟩ | ⟨error, -, hf, -⟩
      · rw [h.offset, hk]
      · cases hf
    · exact .inr (.inl ⟨rfl, error, hm⟩)
    · have hlimit := (endingAt?_eq_none_iff.mp hn).2.1
      exact .inr (.inr ⟨rfl, i, hm, ha.reached hlimit⟩)

theorem step (h : m.Reached stream config) : m.step.2.Reached stream config := by
  rcases h.step_cases with ⟨-, hm⟩ | ⟨-, ho, hm⟩ | ⟨-, error, hm⟩ | ⟨-, i, hm, ha⟩
  · rwa [hm]
  · rw [hm]
    exact h.setStatus fun _ => ho
  · rw [hm]
    exact h.setStatus nofun
  · rwa [hm]

theorem stepped (h : m.Reached stream config) (n : Nat) :
    (m.stepped n).Reached stream config := by
  induction n with
  | zero => exact h
  | succ n ih =>
    rw [stepped_succ]
    exact ih.step

theorem status_step_ne_ready (h : m.Reached stream config) : m.step.2.status ≠ .ready := by
  rcases h.step_cases with ⟨hs, hm⟩ | ⟨-, -, hm⟩ | ⟨-, error, hm⟩ | ⟨-, i, hm, -⟩
  · rw [hm]
    intro hr
    rw [hr] at hs
    cases hs
  all_goals
    rw [hm]
    nofun

theorem eq_of_step_eq_error (h : m.Reached stream config) {error : MachineError} {next : Machine}
    (hn : m.step = (.error error, next)) : next = { m with status := .faulted error } := by
  rcases h.step_cases with ⟨-, hm⟩ | ⟨-, -, hm⟩ | ⟨-, e, hm⟩ | ⟨-, i, hm, -⟩ <;>
    cases hn.symm.trans hm
  rfl

theorem eq_of_step_eq_halted (h : m.Reached stream config) {next : Machine}
    (hn : m.step = (.ok .halted, next)) : next = { m with status := .halted } := by
  rcases h.step_cases with ⟨-, hm⟩ | ⟨-, -, hm⟩ | ⟨-, e, hm⟩ | ⟨-, i, hm, -⟩
  · rw [hm] at hn
    obtain ⟨hs, rfl⟩ := Prod.mk.inj hn
    rw [← Except.ok.inj hs]
  all_goals cases hn.symm.trans hm
  rfl

theorem exists_after_of_step_eq_running (h : m.Reached stream config) {next : Machine}
    (hn : m.step = (.ok .running, next)) : ∃ i, next = m.after i := by
  rcases h.step_cases with ⟨hs, hm⟩ | ⟨-, -, hm⟩ | ⟨-, e, hm⟩ | ⟨-, i, hm, -⟩
  · rw [hm] at hn
    rw [Except.ok.inj (Prod.mk.inj hn).1] at hs
    cases hs
  all_goals cases hn.symm.trans hm
  exact ⟨i, rfl⟩

end Reached

/-- So many steps of the machine execute an instruction, and the next one does not. -/
structure Executes (m : Machine) (n : Nat) : Prop where
  running : ∀ j < n, (m.stepped j).step.1 = .ok .running
  ends : (m.stepped n).step.1 ≠ .ok .running

theorem Executes.unique {m : Machine} {n n' : Nat} (h : m.Executes n) (h' : m.Executes n') :
    n = n' := by
  rcases Nat.lt_trichotomy n n' with hlt | heq | hgt
  · exact absurd (h'.running n hlt) h.ends
  · exact heq
  · exact absurd (h.running n' hgt) h'.ends

namespace At

variable {m : Machine} {stream : List UInt8} {config : Config} {k : Nat} {p : Program}
  {ending : Ending}

theorem stepped_eq (h : m.At stream config k) (c : Course stream config k p ending) {n : Nat}
    (hn : n ≤ p.length) : m.stepped n = (p.take n).foldl Machine.after m := by
  induction c generalizing m n with
  | ends _ =>
    obtain rfl := Nat.le_zero.mp hn
    rfl
  | next hg hi _ _ ih =>
    cases n with
    | zero => rfl
    | succ n =>
      obtain ⟨hm, ha⟩ := h.step_eq hg hi
      rw [← stepped_step, hm, List.take_succ_cons, List.foldl_cons]
      exact ih ha (Nat.le_of_succ_le_succ hn)

theorem executes (h : m.At stream config k) (c : Course stream config k p ending) :
    m.Executes p.length := by
  induction c generalizing m with
  | ends he =>
    refine ⟨nofun, ?_⟩
    rw [List.length_nil, stepped_zero]
    rcases h.step_cases with ⟨-, hm⟩ | ⟨error, -, hm⟩ | ⟨i, hg, -⟩
    · simp [hm]
    · simp [hm]
    · cases he.symm.trans hg
  | next hg hi _ _ ih =>
    obtain ⟨hm, ha⟩ := h.step_eq hg hi
    obtain ⟨hrunning, hends⟩ := ih ha
    have hnext : m.step.2 = m.after _ := congrArg Prod.snd hm
    rw [← hnext] at hrunning hends
    refine ⟨?_, hends⟩
    intro j hj
    cases j with
    | zero => exact congrArg Prod.fst hm
    | succ j => exact hrunning j (Nat.lt_of_succ_lt_succ hj)

end At

/-- However often a machine is stepped, it stands at the record that its count of steps names and
has all its cells. A step that fails or halts changes the status alone, one that executes goes one
record on and adds to the journal, and a machine that has stopped stays as it is. -/
theorem exists_stepped (stream : List UInt8) (config : Config) (hpos : 0 < config.memorySize)
    (hmax : config.memorySize ≤ 65536) :
    ∃ m, start stream config = .ok m ∧ ∀ n,
      (m.stepped n).Reached stream config ∧
      ((m.stepped n).status = .ready ↔ n = 0) ∧
      (∀ error next, (m.stepped n).step = (.error error, next) →
        next = { m.stepped n with status := .faulted error }) ∧
      (∀ next, (m.stepped n).step = (.ok .halted, next) →
        next = { m.stepped n with status := .halted }) ∧
      (∀ next, (m.stepped n).step = (.ok .running, next) →
        next.steps = (m.stepped n).steps + 1 ∧
        next.offset = (m.stepped n).offset + Record.size ∧
        ∃ entries, next.journal.toList = (m.stepped n).journal.toList ++ entries) ∧
      ((m.stepped n).status.hasStopped = true →
        ∀ j, (m.stepped (n + j)).step = (.ok (m.stepped n).status, m.stepped n)) := by
  obtain ⟨m, hm, h, -, -⟩ := exists_start stream hpos hmax
  have hready := status_of_start hm
  have hreached := h.reached fun limit _ => Nat.zero_le limit
  refine ⟨m, hm, fun n => ?_⟩
  have hn := hreached.stepped n
  refine ⟨hn, ?_, ?_, ?_, ?_, ?_⟩
  · cases n with
    | zero => simp [hready]
    | succ n =>
      have hne := (hreached.stepped n).status_step_ne_ready
      rw [stepped_succ]
      simp [hne]
  · intro error next hs
    exact hn.eq_of_step_eq_error hs
  · intro next hs
    exact hn.eq_of_step_eq_halted hs
  · intro next hs
    obtain ⟨i, rfl⟩ := hn.exists_after_of_step_eq_running hs
    exact ⟨rfl, rfl, (m.stepped n).entries i, Array.toList_appendList⟩
  · intro hs j
    have hj : m.stepped (n + j) = m.stepped n := by
      rw [stepped_add, stepped_of_hasStopped hs]
    rw [hj, step_of_hasStopped hs]

theorem exists_stepped_shortTail :
    0 < 16 ∧ 16 ≤ 65536 ∧
      ∃ m, start [0x06, 1, 0, 0, 0, 9, 0x0C, 0] ⟨16, some 5⟩ = .ok m ∧
        (m.stepped 2).status = .faulted (.partialRecord 6 2) ∧
        (m.stepped 2).offset = 6 ∧ (m.stepped 2).steps = 1 ∧
        ∀ j, (m.stepped (2 + j)).step = (.ok (.faulted (.partialRecord 6 2)), m.stepped 2) := by
  refine ⟨by decide, by decide, ?_⟩
  obtain ⟨m, hm, h⟩ := exists_stepped [0x06, 1, 0, 0, 0, 9, 0x0C, 0] ⟨16, some 5⟩ (by decide)
    (by decide)
  obtain ⟨-, -, -, -, -, hstopped⟩ := h 2
  have hlast : (m.stepped 2).status = .faulted (.partialRecord 6 2) ∧ (m.stepped 2).offset = 6 ∧
      (m.stepped 2).steps = 1 := by
    cases hm
    decide
  rw [hlast.1] at hstopped
  exact ⟨m, hm, hlast.1, hlast.2.1, hlast.2.2, hstopped rfl⟩

end Machine

end RecordMachine
