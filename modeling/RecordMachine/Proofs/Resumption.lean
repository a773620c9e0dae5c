import RecordMachine.Proofs.Stepping
/-!
# Resumed runs

A run is a loop of steps. Whoever steps a machine by hand and then lets it run gets what the run
from the start gives, after one call of a step for each whole record that is left and one more.
-/
namespace RecordMachine.Machine

/-- The loop of a run, with the number of its calls of a step and what it gives. Only a step that
halts or fails ends it, so no loop starts from a machine that has failed before. -/
inductive Loop : Machine → Nat → Except RunFault RunResult → Prop
  | halts {m last : Machine} (h : m.step = (.ok .halted, last)) :
    Loop m 1 (.ok ⟨last.state, last.journal.toList, last.steps⟩)
  | fails {m last : Machine} {error : MachineError} (h : m.step = (.error error, last)) :
    Loop m 1 (.error ⟨last.offset, error, last.journal.toList, last.state⟩)
  | goesOn {m next : Machine} {status : Status} {calls : Nat}
    {outcome : Except RunFault RunResult} (h : m.step = (.ok status, next))
    (hs : status ≠ .halted) (rest : Loop next calls outcome) : Loop m (calls + 1) outcome

theorem Loop.run_eq {m : Machine} {calls : Nat} {outcome : Except RunFault RunResult}
    (l : Loop m calls outcome) : m.run = outcome := by
  induction l with
  | halts h => exact run_of_halted h
  | fails h => exact run_of_error h
  | goesOn h _ _ ih => exact (run_step h).symm.trans ih

variable {m : Machine} {stream : List UInt8} {config : Config}

theorem At.exists_loop {k : Nat} (h : m.At stream config k) {p : Program} {ending : Ending}
    (c : Course stream config k p ending) : ∃ outcome, m.Loop (p.length + 1) outcome := by
  induction c generalizing m with
  | ends he =>
    rcases h.step_cases with ⟨-, hm⟩ | ⟨error, -, hm⟩ | ⟨i, hg, -⟩
    · exact ⟨_, .halts hm⟩
    · exact ⟨_, .fails hm⟩
    · cases he.symm.trans hg
  | next hg hi _ _ ih =>
    obtain ⟨hm, ha⟩ := h.step_eq hg hi
    obtain ⟨outcome, l⟩ := ih ha
    exact ⟨outcome, .goesOn hm nofun l⟩

namespace Reached

theorem status_step_ne_faulted (h : m.Reached stream config)
    (hm : ∀ error, m.status ≠ .faulted error) (hok : ∃ status, m.step.1 = .ok status)
    (error : MachineError) : m.step.2.status ≠ .faulted error := by
  obtain ⟨status, hok⟩ := hok
  rcases h.step_cases with ⟨-, hs⟩ | ⟨-, -, hs⟩ | ⟨-, e, hs⟩ | ⟨-, i, hs, -⟩
  · rw [hs]
    exact hm error
  · rw [hs]
    nofun
  · rw [hs] at hok
    cases hok
  · rw [hs]
    nofun

theorem status_stepped_ne_faulted (h : m.Reached stream config)
    (hm : ∀ error, m.status ≠ .faulted error) {n : Nat}
    (hok : ∀ j < n, ∃ status, (m.stepped j).step.1 = .ok status) (error : MachineError) :
    (m.stepped n).status ≠ .faulted error := by
  induction n generalizing error with
  | zero => exact hm error
  | succ n ih =>
    rw [stepped_succ]
    apply (h.stepped n).status_step_ne_faulted
    · exact ih fun j hj => hok j (Nat.lt_succ_of_lt hj)
    · exact hok n (Nat.lt_succ_self n)

/-- The loop of a machine that has not failed ends: each call but the last reads a record. -/
theorem exists_loop (h : m.Reached stream config) (hm : ∀ error, m.status ≠ .faulted error) :
    ∃ calls ≤ (stream.length - m.offset) / Record.size + 1, m.Loop calls m.run := by
  cases hs : m.status.hasStopped with
  | true =>
    have hhalted : m.status = .halted := by
      cases hst : m.status with
      | ready => rw [hst] at hs; cases hs
      | running => rw [hst] at hs; cases hs
      | halted => rfl
      | faulted error => exact absurd hst (hm error)
    have hstep := step_of_hasStopped hs
    rw [hhalted] at hstep
    rw [run_of_halted hstep]
    exact ⟨1, Nat.le_add_left 1 _, .halts hstep⟩
  | false =>
    obtain ⟨p, ending, c⟩ := (h.place hs).exists_course
    obtain ⟨outcome, l⟩ := (h.place hs).exists_loop c
    have hlast := ((h.place hs).foldl_after c).offset_le
    have hlength : p.length ≤ (stream.length - m.offset) / Record.size := by
      have hoffset := h.offset
      simp only [Record.size] at *
      omega
    rw [l.run_eq]
    exact ⟨p.length + 1, Nat.succ_le_succ hlength, l⟩

end Reached

/-- A machine that is stepped without a fault and then runs gives what it gives when it runs from
the start. The run ends with one call of a step for each whole record that is left and one more. -/
theorem exists_resumed_run (stream : List UInt8) (config : Config) (hpos : 0 < config.memorySize)
    (hmax : config.memorySize ≤ 65536) :
    ∃ m, start stream config = .ok m ∧
      ∀ k, (∀ j < k, ∃ status, (m.stepped j).step.1 = .ok status) →
        (m.stepped k).run = m.run ∧
        ∃ calls ≤ (stream.length - (m.stepped k).offset) / Record.size + 1,
          (m.stepped k).Loop calls m.run := by
  obtain ⟨m, hm, h, -, -⟩ := exists_start stream hpos hmax
  have hreached := h.reached fun limit _ => Nat.zero_le limit
  have hready : ∀ error, m.status ≠ .faulted error := by
    rw [status_of_start hm]
    nofun
  refine ⟨m, hm, fun k hok => ?_⟩
  have hrun := run_stepped hok
  have hloop := (hreached.stepped k).exists_loop (hreached.status_stepped_ne_faulted hready hok)
  rw [hrun] at hloop
  exact ⟨hrun, hloop⟩

theorem exists_resumed_run_halted :
    0 < 16 ∧ 16 ≤ 65536 ∧
      ∃ m, start [6, 1, 0, 0, 0, 9] ⟨16, none⟩ = .ok m ∧
        (∀ j < 3, ∃ status, (m.stepped j).step.1 = .ok status) ∧
        (m.stepped 3).status = .halted ∧ (m.stepped 3).run = m.run ∧
        ∃ calls ≤ 1, (m.stepped 3).Loop calls m.run := by
  refine ⟨by decide, by decide, ?_⟩
  obtain ⟨m, hm, hresumed⟩ :=
    exists_resumed_run [6, 1, 0, 0, 0, 9] ⟨16, none⟩ (by decide) (by decide)
  have hsteps : (m.stepped 0).step.1 = .ok .running ∧ (m.stepped 1).step.1 = .ok .halted ∧
      (m.stepped 2).step.1 = .ok .halted := by
    cases hm
    exact ⟨rfl, rfl, rfl⟩
  obtain ⟨hzero, hone, htwo⟩ := hsteps
  have hruns : ∀ j < 3, ∃ status, (m.stepped j).step.1 = .ok status := by
    intro j hj
    match j, hj with
    | 0, _ => exact ⟨_, hzero⟩
    | 1, _ => exact ⟨_, hone⟩
    | 2, _ => exact ⟨_, htwo⟩
  have hlast : (m.stepped 3).status = .halted ∧ (m.stepped 3).offset = 6 := by
    cases hm
    exact ⟨rfl, rfl⟩
  obtain ⟨hrun, hloop⟩ := hresumed 3 hruns
  rw [hlast.2] at hloop
  exact ⟨m, hm, hruns, hlast.1, hrun, hloop⟩

end RecordMachine.Machine
