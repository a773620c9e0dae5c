import RecordMachine.Proofs.Replay
import RecordMachine.Proofs.Stepping
/-!
# Step limits

A limit is no part of what instructions mean. A run that ends within the limit gives what it gives
without one, and any other run is cut behind as many instructions as the limit allows.
-/
namespace RecordMachine

section

variable {stream : List UInt8} {memorySize limit k : Nat}

theorem endingAt?_within_limit (h : k < limit ∨ k * Record.size = stream.length) :
    endingAt? stream ⟨memorySize, some limit⟩ k = endingAt? stream ⟨memorySize, none⟩ k := by
  by_cases hk : k * Record.size = stream.length
  · simp [endingAt?, hk]
  · have hlt : ¬limit ≤ k := Nat.not_le_of_lt (h.resolve_right hk)
    simp [endingAt?, hk, Option.filter_some, hlt]

theorem endingAt?_at_limit (hle : limit ≤ k) (hk : k * Record.size ≠ stream.length) :
    endingAt? stream ⟨memorySize, some limit⟩ k = some (.fault (.stepLimit limit)) := by
  simp [endingAt?, hk, Option.filter_some, hle]

end

namespace Course

variable {stream : List UInt8} {memorySize limit : Nat} {p : Program} {ending : Ending}

/-- A limit lets those courses pass that are shorter, and those that halt when it is used up. -/
theorem within_limit (c : Course stream ⟨memorySize, none⟩ 0 p ending)
    (h : p.length < limit ∨ p.length = limit ∧ ending = .halt) :
    Course stream ⟨memorySize, some limit⟩ 0 p ending := by
  apply c.congr
  · intro j hj
    apply endingAt?_within_limit
    rw [Nat.zero_add]
    rcases h with hlt | ⟨rfl, rfl⟩
    · exact .inl (Nat.lt_of_le_of_lt hj hlt)
    · rcases Nat.lt_or_eq_of_le hj with hlt | rfl
      · exact .inl hlt
      · have hend := c.endingAt?_add_length
        rw [Nat.zero_add] at hend
        rcases endingAt?_cases hend with ⟨hk, -⟩ | ⟨error, -, hf, -⟩
        · exact .inr hk
        · cases hf
  · intro j _
    rfl

theorem take_limit (c : Course stream ⟨memorySize, none⟩ 0 p ending)
    (h : limit < p.length ∨ limit = p.length ∧ ending ≠ .halt) :
    Course stream ⟨memorySize, some limit⟩ 0 (p.take limit) (.fault (.stepLimit limit)) := by
  have hle : limit ≤ p.length := by omega
  apply c.take hle
  · intro j hj
    have hlt : 0 + j < limit := by omega
    rw [endingAt?_within_limit (.inl hlt)]
    exact c.endingAt?_eq_none (Nat.zero_le _) (by omega)
  · intro j _
    rfl
  · apply endingAt?_at_limit (Nat.le_add_left limit 0)
    rcases h with hlt | ⟨rfl, hne⟩
    · have hgoes := c.endingAt?_eq_none (Nat.zero_le (0 + limit)) (by omega)
      exact (endingAt?_eq_none_iff.mp hgoes).1
    · rcases endingAt?_cases c.endingAt?_add_length with ⟨-, hhalt⟩ | ⟨error, hk, -⟩
      · exact absurd hhalt hne
      · exact hk

end Course

namespace State

variable {s : State} {e : JournalEntry}

theorem step_of_mem_entries {k : Nat} {i : Instruction} (h : e ∈ s.entries k i) : e.step = k := by
  obtain ⟨effect, -, rfl⟩ := List.mem_map.mp h
  rfl

theorem le_step_of_mem_journal {k : Nat} {p : Program} (h : e ∈ s.journal k p) : k ≤ e.step := by
  induction p generalizing s k with
  | nil => cases h
  | cons i p ih =>
    rcases List.mem_append.mp h with hi | hp
    · exact Nat.le_of_eq (step_of_mem_entries hi).symm
    · exact Nat.le_of_succ_le (ih hp)

theorem journal_take (s : State) (k n : Nat) (p : Program) :
    s.journal k (p.take n) = (s.journal k p).filter (·.step < k + n) := by
  induction p generalizing s k n with
  | nil =>
    rw [List.take_nil]
    rfl
  | cons i p ih =>
    cases n with
    | zero =>
      have hnone : (s.journal k (i :: p)).filter (·.step < k + 0) = [] := by
        rw [List.filter_eq_nil_iff]
        intro e he
        simpa using le_step_of_mem_journal he
      exact hnone.symm
    | succ n =>
      have hall : ∀ e ∈ s.entries k i, e.step < k + (n + 1) := by
        intro e he
        rw [step_of_mem_entries he]
        omega
      have hentries : (s.entries k i).filter (·.step < k + (n + 1)) = s.entries k i := by
        simpa using hall
      rw [List.take_succ_cons, journal_cons, journal_cons, List.filter_append, hentries, ih,
        Nat.add_right_comm, Nat.add_assoc]

end State

namespace Machine

def journalOf : Except RunFault RunResult → Journal
  | .ok r => r.journal
  | .error f => f.journal

/-- A run of `n` instructions ends before the limit stops it: one that halts may use the limit up,
one that fails may not. -/
def EndsWithin (limit n : Nat) : Except RunFault RunResult → Prop
  | .ok _ => n ≤ limit
  | .error _ => n < limit

theorem journalOf_outcome (s : State) (p : Program) (ending : Ending) :
    journalOf (s.outcome p ending) = s.journal 0 p := by
  cases ending with
  | halt => rfl
  | fault error => rfl

theorem endsWithin_outcome_iff {s : State} {p : Program} {ending : Ending} {limit : Nat} :
    EndsWithin limit p.length (s.outcome p ending) ↔
      p.length < limit ∨ p.length = limit ∧ ending = .halt := by
  cases ending with
  | halt => simp [EndsWithin, State.outcome, Nat.le_iff_lt_or_eq]
  | fault error => simp [EndsWithin, State.outcome]

/-- A limit changes nothing for a run that ends within it. Any other run fails behind as many
instructions as the limit allows, with their entries and in their state. -/
theorem exists_limited_run (stream : List UInt8) (memorySize limit : Nat) (hpos : 0 < memorySize)
    (hmax : memorySize ≤ 65536) :
    ∃ free limited n, start stream ⟨memorySize, none⟩ = .ok free ∧
      start stream ⟨memorySize, some limit⟩ = .ok limited ∧
      free.Executes n ∧ (∀ r, free.run = .ok r → r.steps = n) ∧
      (EndsWithin limit n free.run → limited.run = free.run) ∧
      (¬EndsWithin limit n free.run →
        limited.run = .error ⟨limit * Record.size, .stepLimit limit,
          (journalOf free.run).filter (·.step < limit), (free.stepped limit).state⟩) := by
  obtain ⟨free, hf, h, hstate, hrun⟩ := exists_outcome stream ⟨memorySize, none⟩ hpos hmax
  obtain ⟨limited, hl, -, -, hrun'⟩ := exists_outcome stream ⟨memorySize, some limit⟩ hpos hmax
  obtain ⟨p, ending, c⟩ := h.exists_course
  refine ⟨free, limited, p.length, hf, hl, h.executes c, ?_, ?_, ?_⟩
  · intro r hr
    rw [hrun p ending c] at hr
    cases ending with
    | halt => rw [← Except.ok.inj hr]
    | fault error => cases hr
  · intro hw
    rw [hrun p ending c] at hw ⊢
    exact hrun' p ending (c.within_limit (endsWithin_outcome_iff.mp hw))
  · intro hw
    rw [hrun p ending c, endsWithin_outcome_iff] at hw
    have hcut : limit < p.length ∨ limit = p.length ∧ ending ≠ .halt := by
      rcases Nat.lt_trichotomy limit p.length with hlt | heq | hgt
      · exact .inl hlt
      · exact .inr ⟨heq, fun hhalt => hw (.inr ⟨heq.symm, hhalt⟩)⟩
      · exact absurd (.inl hgt) hw
    have hle : limit ≤ p.length := by omega
    have htaken : (p.take limit).length = limit := List.length_take_of_le hle
    have hjournal := (State.zero memorySize).journal_take 0 limit p
    rw [Nat.zero_add] at hjournal
    rw [hrun p ending c, journalOf_outcome, h.stepped_eq c hle, state_foldl_after, hstate,
      hrun' _ _ (c.take_limit hcut), State.outcome, htaken, hjournal]

/-- The limit is reached in front of the byte that is left, and comes before the fault that this
byte would cause. -/
theorem exists_limited_run_shortTail :
    0 < 16 ∧ 16 ≤ 65536 ∧
      ∃ free limited, start [6, 1, 0, 0, 0, 9, 14, 0, 3, 1, 2, 0, 6] ⟨16, none⟩ = .ok free ∧
        start [6, 1, 0, 0, 0, 9, 14, 0, 3, 1, 2, 0, 6] ⟨16, some 2⟩ = .ok limited ∧
        (∃ f, free.run = .error f ∧ f.error = .partialRecord 12 1) ∧
        limited.run = .error ⟨12, .stepLimit 2, (journalOf free.run).filter (·.step < 2),
          (free.stepped 2).state⟩ := by
  refine ⟨by decide, by decide, ?_⟩
  obtain ⟨free, limited, n, hf, hl, hn, -, -, hcut⟩ :=
    exists_limited_run [6, 1, 0, 0, 0, 9, 14, 0, 3, 1, 2, 0, 6] 16 2 (by decide) (by decide)
  have hsteps : (free.stepped 0).step.1 = .ok .running ∧ (free.stepped 1).step.1 = .ok .running ∧
      (free.stepped 2).step.1 = .error (.partialRecord 12 1) := by
    cases hf
    exact ⟨rfl, rfl, rfl⟩
  obtain ⟨hzero, hone, htwo⟩ := hsteps
  have hexecutes : free.Executes 2 := by
    refine ⟨?_, by rw [htwo]; nofun⟩
    intro j hj
    match j, hj with
    | 0, _ => exact hzero
    | 1, _ => exact hone
  have hfails := run_of_stepped_error (fun j hj => ⟨_, hexecutes.running j hj⟩) htwo
  obtain rfl := hn.unique hexecutes
  refine ⟨free, limited, hf, hl, ⟨_, hfails, rfl⟩, hcut ?_⟩
  rw [hfails]
  exact Nat.lt_irrefl 2

end Machine

end RecordMachine
