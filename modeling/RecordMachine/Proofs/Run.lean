import RecordMachine.Machine
import RecordMachine.Proofs.Execution
import RecordMachine.Proofs.Stream
/-!
# Runs

The stream, the size of the memory and the limit alone decide at which record
a run ends, and how. What the cells hold has no part in it.
-/
namespace RecordMachine

inductive Ending
  | halt
  | fault (error : MachineError)
  deriving DecidableEq, Repr

/-- Why no machine with this much memory executes the record. -/
def Record.fault? (r : Record) (memorySize offset : Nat) : Option MachineError :=
  if Opcode.ofTag? r.tag = none then some (.unknownOpcode offset r.tag)
  else
    match r.decode with
    | .ok i => (i.missingCell? memorySize).map fun (store, index, size) =>
        .missingCell offset i.opcode store index size
    | .error _ => none

/-- How a run ends in front of the record with the given index, if it ends there. -/
def endingAt? (stream : List UInt8) (config : Config) (k : Nat) : Option Ending :=
  let offset := k * Record.size
  let remaining := stream.length - offset
  if offset = stream.length then some .halt
  else
    match config.maxSteps.filter (· ≤ k) with
    | some limit => some (.fault (.stepLimit limit))
    | none =>
      if remaining < Record.size then some (.fault (.partialRecord offset remaining))
      else ((Record.split stream).1[k]?.bind (·.fault? config.memorySize offset)).map .fault

def instructionAt? (stream : List UInt8) (k : Nat) : Option Instruction :=
  (Record.split stream).1[k]?.bind (·.decode.toOption)

theorem Record.fault?_of_decode {r : Record} {i : Instruction} (h : r.decode = .ok i)
    (memorySize offset : Nat) :
    r.fault? memorySize offset =
      (i.missingCell? memorySize).map fun (store, index, size) =>
        .missingCell offset i.opcode store index size := by
  have ht := (decode_eq_ok_iff.mp h).1
  rw [fault?, ht, Opcode.ofTag?_tag, if_neg (Option.some_ne_none _), h]

theorem Record.fault?_of_decode_error {r : Record} {error : CodecError}
    (h : r.decode = .error error) (memorySize offset : Nat) :
    r.fault? memorySize offset = some (.unknownOpcode offset r.tag) := by
  rw [fault?, if_pos (tag_of_decode_error h).1]

theorem Record.offset?_of_fault? {r : Record} {memorySize offset : Nat} {error : MachineError}
    (h : r.fault? memorySize offset = some error) : error.offset? = some offset := by
  cases hd : r.decode with
  | error e =>
    rw [fault?_of_decode_error hd] at h
    rw [← Option.some.inj h]
    rfl
  | ok i =>
    rw [fault?_of_decode hd] at h
    obtain ⟨cell, -, rfl⟩ := Option.map_eq_some_iff.mp h
    rfl

theorem Record.fault?_cases {r : Record} {memorySize offset : Nat} {error : MachineError}
    (h : r.fault? memorySize offset = some error) :
    (r.decode = .error (.unknownTag r.tag) ∧ error = .unknownOpcode offset r.tag) ∨
      ∃ i store index size, r.decode = .ok i ∧
        i.missingCell? memorySize = some (store, index, size) ∧
        error = .missingCell offset i.opcode store index size := by
  cases hd : r.decode with
  | error e =>
    rw [fault?_of_decode_error hd] at h
    rw [(tag_of_decode_error hd).2]
    exact .inl ⟨rfl, (Option.some.inj h).symm⟩
  | ok i =>
    rw [fault?_of_decode hd] at h
    obtain ⟨⟨store, index, size⟩, hc, rfl⟩ := Option.map_eq_some_iff.mp h
    exact .inr ⟨i, store, index, size, rfl, hc, rfl⟩

/-- A run halts at the end of the stream only, and a fault names its record or comes from the
limit. -/
theorem endingAt?_cases {stream : List UInt8} {config : Config} {k : Nat} {ending : Ending}
    (h : endingAt? stream config k = some ending) :
    (k * Record.size = stream.length ∧ ending = .halt) ∨
      ∃ error, k * Record.size ≠ stream.length ∧ ending = .fault error ∧
        (error.offset? = some (k * Record.size) ∨
          ∃ limit, config.maxSteps = some limit ∧ limit ≤ k ∧ error = .stepLimit limit) := by
  rw [endingAt?] at h
  split at h
  next hk => exact .inl ⟨hk, (Option.some.inj h).symm⟩
  next hk =>
    right
    split at h
    next limit hl =>
      cases h
      obtain ⟨hm, hle⟩ := Option.filter_eq_some_iff.mp hl
      exact ⟨_, hk, rfl, .inr ⟨limit, hm, of_decide_eq_true hle, rfl⟩⟩
    next =>
      split at h
      next =>
        cases h
        exact ⟨_, hk, rfl, .inl rfl⟩
      next =>
        obtain ⟨error, hb, rfl⟩ := Option.map_eq_some_iff.mp h
        obtain ⟨r, -, hr⟩ := Option.bind_eq_some_iff.mp hb
        exact ⟨error, hk, rfl, .inl (Record.offset?_of_fault? hr)⟩

theorem eq_length_of_endingAt? {stream : List UInt8} {config : Config} {k : Nat}
    (h : endingAt? stream config k = some .halt) : k * Record.size = stream.length := by
  rcases endingAt?_cases h with ⟨hk, -⟩ | ⟨error, -, hf, -⟩
  · exact hk
  · cases hf

theorem endingAt?_eq_none_iff {stream : List UInt8} {config : Config} {k : Nat} :
    endingAt? stream config k = none ↔
      k * Record.size ≠ stream.length ∧ (∀ limit ∈ config.maxSteps, k < limit) ∧
        Record.size ≤ stream.length - k * Record.size ∧
        ∀ r ∈ (Record.split stream).1[k]?,
          r.fault? config.memorySize (k * Record.size) = none := by
  have hlimit : (∀ limit ∈ config.maxSteps, k < limit) ↔
      config.maxSteps.filter (· ≤ k) = none := by
    simp [Option.filter_eq_none_iff]
  rw [hlimit, endingAt?]
  by_cases hk : k * Record.size = stream.length
  · simp [hk]
  · cases hl : config.maxSteps.filter (· ≤ k) with
    | some limit => simp [hk]
    | none =>
      by_cases hs : stream.length - k * Record.size < Record.size
      · simp [hk, hs, Nat.not_le_of_lt hs]
      · simp [hk, hs, Nat.le_of_not_lt hs]

theorem exists_record_of_instructionAt? {stream : List UInt8} {k : Nat} {i : Instruction}
    (h : instructionAt? stream k = some i) :
    ∃ r, (Record.split stream).1[k]? = some r ∧ r.decode = .ok i := by
  obtain ⟨r, hr, hd⟩ := Option.bind_eq_some_iff.mp h
  refine ⟨r, hr, ?_⟩
  cases hi : r.decode with
  | error e =>
    rw [hi] at hd
    cases hd
  | ok j =>
    rw [hi] at hd
    rw [Option.some.inj hd]

theorem missingCell?_of_endingAt?_eq_none {stream : List UInt8} {config : Config} {k : Nat}
    {i : Instruction} (hn : endingAt? stream config k = none)
    (hi : instructionAt? stream k = some i) : i.missingCell? config.memorySize = none := by
  obtain ⟨-, -, -, hfault⟩ := endingAt?_eq_none_iff.mp hn
  obtain ⟨r, hr, hd⟩ := exists_record_of_instructionAt? hi
  have hf := hfault r hr
  rwa [Record.fault?_of_decode hd, Option.map_eq_none_iff] at hf

namespace Machine

def entries (m : Machine) (i : Instruction) : Journal :=
  (m.state.apply i).2.map fun effect => ⟨m.steps, m.offset, i, effect⟩

def after (m : Machine) (i : Instruction) : Machine where
  unread := m.unread.drop Record.size
  offset := m.offset + Record.size
  state := (m.state.apply i).1
  status := .running
  journal := m.journal ++ m.entries i
  steps := m.steps + 1
  maxSteps := m.maxSteps

/-- The machine stands in front of the record with index `k`. -/
structure At (m : Machine) (stream : List UInt8) (config : Config) (k : Nat) : Prop where
  unread : m.unread = stream.drop (k * Record.size)
  offset : m.offset = k * Record.size
  offset_le : k * Record.size ≤ stream.length
  steps : m.steps = k
  maxSteps : m.maxSteps = config.maxSteps
  sized : m.state.Sized config.memorySize
  ready : m.status.hasStopped = false

namespace At

variable {m : Machine} {stream : List UInt8} {config : Config} {k : Nat}

theorem length_unread (h : m.At stream config k) :
    m.unread.length = stream.length - k * Record.size := by
  rw [h.unread, List.length_drop]

theorem checkLimit_eq (h : m.At stream config k) :
    m.checkLimit =
      match config.maxSteps.filter (· ≤ k) with
      | some limit => .error (.stepLimit limit)
      | none => .ok () := by
  rw [checkLimit, h.maxSteps, h.steps]
  cases config.maxSteps with
  | none => rfl
  | some limit =>
    by_cases hl : limit ≤ k
    · simp [Option.filter_some, hl]
    · simp [Option.filter_some, hl]

theorem fetch_short (h : m.At stream config k)
    (hs : stream.length - k * Record.size < Record.size) :
    m.fetch = .error (.partialRecord (k * Record.size) (stream.length - k * Record.size)) := by
  rw [← h.length_unread] at hs ⊢
  rw [← h.offset, fetch]
  split
  next tag b1 b2 b3 b4 b5 rest hu =>
    rw [hu, Record.size] at hs
    simp only [List.length_cons] at hs
    omega
  next => rfl

theorem exists_fetch (h : m.At stream config k)
    (hl : ¬stream.length - k * Record.size < Record.size) :
    ∃ r, (Record.split stream).1[k]? = some r ∧ m.fetch = .ok (r, m.unread.drop Record.size) := by
  rw [← h.length_unread, Nat.not_lt] at hl
  obtain ⟨r, rest, hr⟩ := Record.exists_bytes_append hl
  refine ⟨r, Record.getElem?_split (h.unread ▸ hr), ?_⟩
  rw [fetch, hr]
  rfl

theorem decode_eq (h : m.At stream config k) (r : Record) :
    m.decode r =
      match r.decode with
      | .ok i => .ok i
      | .error _ => .error (.unknownOpcode (k * Record.size) r.tag) := by
  rw [decode, h.offset]
  cases hd : r.decode with
  | ok i => rfl
  | error e =>
    rw [(Record.tag_of_decode_error hd).2]

theorem execute_eq (h : m.At stream config k) (i : Instruction) :
    m.state.execute i m.offset m.steps =
      match i.missingCell? config.memorySize with
      | some (store, index, size) =>
        .error (.missingCell (k * Record.size) i.opcode store index size)
      | none => .ok ((m.state.apply i).1, m.entries i) := by
  rw [State.execute, h.sized.checkCells_eq, h.offset, h.steps]
  cases i.missingCell? config.memorySize with
  | none => rw [entries, h.offset, h.steps]; rfl
  | some cell => rfl

theorem advance_of_checkLimit (h : m.At stream config k) {limit : Nat}
    (hl : config.maxSteps.filter (· ≤ k) = some limit) : m.advance = .error (.stepLimit limit) := by
  rw [advance, h.checkLimit_eq, hl]
  rfl

theorem advance_short (h : m.At stream config k) (hl : config.maxSteps.filter (· ≤ k) = none)
    (hs : stream.length - k * Record.size < Record.size) :
    m.advance =
      .error (.partialRecord (k * Record.size) (stream.length - k * Record.size)) := by
  rw [advance, h.checkLimit_eq, hl, h.fetch_short hs]
  rfl

theorem advance_record (h : m.At stream config k) (hl : config.maxSteps.filter (· ≤ k) = none)
    {r : Record} (hf : m.fetch = .ok (r, m.unread.drop Record.size)) :
    (∃ error, r.fault? config.memorySize (k * Record.size) = some error ∧
        m.advance = .error error) ∨
      ∃ i, r.fault? config.memorySize (k * Record.size) = none ∧ r.decode = .ok i ∧
        i.missingCell? config.memorySize = none ∧ m.advance = .ok (m.after i) := by
  simp only [advance, h.checkLimit_eq, hl, hf, bind, Except.bind, h.decode_eq]
  cases hd : r.decode with
  | error e => exact .inl ⟨_, Record.fault?_of_decode_error hd _ _, rfl⟩
  | ok i =>
    simp only [h.execute_eq, Record.fault?_of_decode hd]
    cases hc : i.missingCell? config.memorySize with
    | some cell => exact .inl ⟨_, rfl, rfl⟩
    | none => exact .inr ⟨i, rfl, rfl, hc, rfl⟩

theorem after (h : m.At stream config k) (hk : (k + 1) * Record.size ≤ stream.length)
    (i : Instruction) : (m.after i).At stream config (k + 1) where
  unread := by
    rw [Machine.after, h.unread, List.drop_drop, Nat.succ_mul]
  offset := by
    rw [Machine.after, h.offset, Nat.succ_mul]
  offset_le := hk
  steps := congrArg (· + 1) h.steps
  maxSteps := h.maxSteps
  sized := h.sized.apply i
  ready := rfl

/-- Everything that a step can do. -/
theorem step_cases (h : m.At stream config k) :
    (endingAt? stream config k = some .halt ∧
        m.step = (.ok .halted, { m with status := .halted })) ∨
      (∃ error, endingAt? stream config k = some (.fault error) ∧
        m.step = (.error error, { m with status := .faulted error })) ∨
      ∃ i, endingAt? stream config k = none ∧ instructionAt? stream k = some i ∧
        i.missingCell? config.memorySize = none ∧ m.step = (.ok .running, m.after i) ∧
        (m.after i).At stream config (k + 1) := by
  have hu := h.length_unread
  have hs : ¬m.status.hasStopped := Bool.eq_false_iff.mp h.ready
  rw [step, if_neg hs]
  by_cases he : k * Record.size = stream.length
  · left
    have hz : m.unread.isEmpty := by
      rw [List.isEmpty_iff_length_eq_zero, hu]
      omega
    rw [endingAt?, if_pos he, if_pos hz]
    exact ⟨rfl, rfl⟩
  · right
    have hz : ¬m.unread.isEmpty := by
      have := h.offset_le
      rw [List.isEmpty_iff_length_eq_zero, hu]
      omega
    simp only [endingAt?, if_neg he, if_neg hz]
    cases hl : config.maxSteps.filter (· ≤ k) with
    | some limit =>
      left
      rw [h.advance_of_checkLimit hl]
      exact ⟨_, rfl, rfl⟩
    | none =>
      by_cases hr : stream.length - k * Record.size < Record.size
      · left
        rw [h.advance_short hl hr]
        exact ⟨_, if_pos hr, rfl⟩
      · obtain ⟨r, hk, hf⟩ := h.exists_fetch hr
        simp only [if_neg hr, hk, Option.bind_some]
        rcases h.advance_record hl hf with ⟨error, he, ha⟩ | ⟨i, he, hd, hc, ha⟩
        · left
          rw [ha, he]
          exact ⟨error, rfl, rfl⟩
        · right
          have hi : instructionAt? stream k = some i := by
            rw [instructionAt?, hk, Option.bind_some, hd]
            rfl
          rw [ha, he]
          refine ⟨i, rfl, hi, hc, rfl, h.after ?_ i⟩
          have := h.offset_le
          rw [Nat.succ_mul]
          omega

end At

end Machine

theorem Config.memorySize_of_validate {config : Config} (h : config.validate = .ok ()) :
    0 < config.memorySize ∧ config.memorySize ≤ 65536 := by
  rw [validate] at h
  split at h
  next => cases h
  next hzero =>
    split at h
    next => cases h
    next hmax => exact ⟨Nat.pos_of_ne_zero hzero, Nat.le_of_not_lt hmax⟩

/-- From the record with index `k` on, a run executes the instructions of `p` and then ends. -/
inductive Course (stream : List UInt8) (config : Config) : Nat → Program → Ending → Prop
  | ends {k : Nat} {ending : Ending} (he : endingAt? stream config k = some ending) :
    Course stream config k [] ending
  | next {k : Nat} {i : Instruction} {p : Program} {ending : Ending}
    (hn : endingAt? stream config k = none) (hi : instructionAt? stream k = some i)
    (hc : i.missingCell? config.memorySize = none)
    (rest : Course stream config (k + 1) p ending) : Course stream config k (i :: p) ending

namespace Course

variable {stream : List UInt8} {config : Config} {k : Nat} {p : Program} {ending : Ending}

theorem endingAt?_add_length (c : Course stream config k p ending) :
    endingAt? stream config (k + p.length) = some ending := by
  induction c with
  | ends he => exact he
  | next hn hi hc rest ih => rwa [List.length_cons, ← Nat.add_assoc, Nat.add_right_comm]

theorem endingAt?_eq_none (c : Course stream config k p ending) {j : Nat} (hk : k ≤ j)
    (hj : j < k + p.length) : endingAt? stream config j = none := by
  induction c with
  | ends he =>
    rw [List.length_nil] at hj
    omega
  | @next k i p ending hn hi hc rest ih =>
    by_cases he : k = j
    · exact he ▸ hn
    · rw [List.length_cons] at hj
      exact ih (by omega) (by omega)

theorem instructionAt?_add (c : Course stream config k p ending) {j : Nat} {i : Instruction}
    (h : p[j]? = some i) : instructionAt? stream (k + j) = some i := by
  induction c generalizing j with
  | ends he => cases h
  | @next k i p ending hn hi hc rest ih =>
    cases j with
    | zero => exact Option.some.inj h ▸ hi
    | succ j =>
      rw [Nat.add_comm j, ← Nat.add_assoc]
      exact ih h

theorem missingCell?_eq_none (c : Course stream config k p ending) {i : Instruction}
    (h : i ∈ p) : i.missingCell? config.memorySize = none := by
  induction c with
  | ends he => cases h
  | next hn hi hc rest ih =>
    rcases List.mem_cons.mp h with rfl | h
    · exact hc
    · exact ih h

variable {other : List UInt8} {config' : Config} {ending' : Ending}

/-- The first instructions of a course are the course of another stream or configuration that goes
on at all of them and ends behind them. -/
theorem take (c : Course stream config k p ending) {n : Nat} (hle : n ≤ p.length)
    (hn : ∀ j < n, endingAt? other config' (k + j) = none)
    (hi : ∀ j < n, instructionAt? other (k + j) = instructionAt? stream (k + j))
    (he : endingAt? other config' (k + n) = some ending') :
    Course other config' k (p.take n) ending' := by
  induction c generalizing n with
  | ends _ =>
    obtain rfl := Nat.le_zero.mp hle
    exact .ends he
  | @next k i p ending _ hk _ _ ih =>
    cases n with
    | zero => exact .ends he
    | succ n =>
      have hgoes : endingAt? other config' k = none := hn 0 (Nat.succ_pos n)
      have hinstr : instructionAt? other k = some i := (hi 0 (Nat.succ_pos n)).trans hk
      have hshift : ∀ j, k + 1 + j = k + (j + 1) := fun j => by omega
      refine .next hgoes hinstr (missingCell?_of_endingAt?_eq_none hgoes hinstr) ?_
      apply ih (Nat.le_of_succ_le_succ hle)
      · intro j hj
        rw [hshift]
        exact hn (j + 1) (Nat.succ_lt_succ hj)
      · intro j hj
        rw [hshift]
        exact hi (j + 1) (Nat.succ_lt_succ hj)
      · rwa [hshift]

theorem congr (c : Course stream config k p ending)
    (he : ∀ j ≤ p.length, endingAt? other config' (k + j) = endingAt? stream config (k + j))
    (hi : ∀ j < p.length, instructionAt? other (k + j) = instructionAt? stream (k + j)) :
    Course other config' k p ending := by
  have hcourse : Course other config' k (p.take p.length) ending := by
    apply c.take (Nat.le_refl _) _ hi
    · rw [he p.length (Nat.le_refl _), c.endingAt?_add_length]
    · intro j hj
      rw [he j (Nat.le_of_lt hj)]
      exact c.endingAt?_eq_none (Nat.le_add_right k j) (Nat.add_lt_add_left hj k)
  rwa [List.take_length] at hcourse

end Course

namespace Machine

theorem run_of_running {m next : Machine} (h : m.step = (.ok .running, next)) :
    m.run = next.run := by
  rw [run]
  split <;> rename_i hs <;> rw [h] at hs <;> cases hs
  · rfl
  · contradiction

theorem run_of_error {m last : Machine} {error : MachineError} (h : m.step = (.error error, last)) :
    m.run = .error ⟨last.offset, error, last.journal.toList, last.state⟩ := by
  rw [run]
  split <;> rename_i hs <;> rw [h] at hs <;> cases hs
  rfl

theorem run_of_halted {m last : Machine} (h : m.step = (.ok .halted, last)) :
    m.run = .ok ⟨last.state, last.journal.toList, last.steps⟩ := by
  rw [run]
  split <;> rename_i hs <;> rw [h] at hs <;> cases hs
  rfl

def result (m : Machine) : Ending → Except RunFault RunResult
  | .halt => .ok ⟨m.state, m.journal.toList, m.steps⟩
  | .fault error => .error ⟨m.offset, error, m.journal.toList, m.state⟩

namespace At

variable {m : Machine} {stream : List UInt8} {config : Config} {k : Nat}

theorem exists_course (h : m.At stream config k) :
    ∃ p ending, Course stream config k p ending := by
  -- Each record that is executed leaves fewer bytes.
  induction hb : stream.length - k * Record.size using Nat.strongRecOn generalizing m k with
  | ind b ih =>
    rcases h.step_cases with ⟨he, -⟩ | ⟨error, he, -⟩ | ⟨i, hn, hi, hc, -, ha⟩
    · exact ⟨[], _, .ends he⟩
    · exact ⟨[], _, .ends he⟩
    · have hlt : stream.length - (k + 1) * Record.size < b := by
        have := ha.offset_le
        rw [Nat.succ_mul, Record.size] at *
        omega
      obtain ⟨p, ending, c⟩ := ih _ hlt ha rfl
      exact ⟨i :: p, ending, .next hn hi hc c⟩

theorem step_eq (h : m.At stream config k) {i : Instruction}
    (hn : endingAt? stream config k = none) (hi : instructionAt? stream k = some i) :
    m.step = (.ok .running, m.after i) ∧ (m.after i).At stream config (k + 1) := by
  rcases h.step_cases with ⟨he, -⟩ | ⟨error, he, -⟩ | ⟨j, -, hj, -, hm, ha⟩
  · cases hn.symm.trans he
  · cases hn.symm.trans he
  · cases hi.symm.trans hj
    exact ⟨hm, ha⟩

theorem foldl_after (h : m.At stream config k) {p : Program} {ending : Ending}
    (c : Course stream config k p ending) :
    (p.foldl Machine.after m).At stream config (k + p.length) := by
  induction c generalizing m with
  | ends he => exact h
  | next hn hi hc rest ih =>
    rw [List.foldl_cons, List.length_cons, ← Nat.add_assoc, Nat.add_right_comm]
    exact ih (h.step_eq hn hi).2

/-- A run is settled by its course, whatever the cells hold. -/
theorem run_eq (h : m.At stream config k) {p : Program} {ending : Ending}
    (c : Course stream config k p ending) :
    m.run = (p.foldl Machine.after m).result ending := by
  -- The machine is generalised because each step starts the rest of the course from a new one.
  induction c generalizing m with
  | ends he =>
    rcases h.step_cases with ⟨hs, hm⟩ | ⟨error, hs, hm⟩ | ⟨i, hn, -⟩
    · cases he.symm.trans hs
      rw [run_of_halted hm]
      rfl
    · cases he.symm.trans hs
      rw [run_of_error hm]
      rfl
    · cases he.symm.trans hn
  | next hn hi hc rest ih =>
    obtain ⟨hm, ha⟩ := h.step_eq hn hi
    rw [run_of_running hm, List.foldl_cons]
    exact ih ha

end At

theorem start_of_validate_eq_error {config : Config} {error : ConfigError}
    (h : config.validate = .error error) (stream : List UInt8) :
    start stream config = .error (.config error) := by
  rw [start, h]
  rfl

theorem exists_start (stream : List UInt8) {config : Config} (hpos : 0 < config.memorySize)
    (hmax : config.memorySize ≤ 65536) :
    ∃ m, start stream config = .ok m ∧ m.At stream config 0 ∧
      m.state = .zero config.memorySize ∧ m.journal = #[] := by
  have hm : ¬State.maxMemorySize < config.memorySize := Nat.not_lt_of_le hmax
  have hv : config.validate = .ok () := by
    rw [Config.validate, if_neg (Nat.ne_of_gt hpos), if_neg hm]
  refine ⟨_, by rw [start, hv]; rfl, ?_, rfl, rfl⟩
  exact ⟨(List.drop_zero).symm, rfl, Nat.zero_le _, rfl, rfl, State.sized_zero _, rfl⟩

end Machine

end RecordMachine
