import RecordMachine.Proofs.Run
/-!
# Replay of journals

Each executed instruction leaves one entry for the cell that it changed and,
if it divided by zero, a notice directly behind it. The changes of a journal,
made again one after the other, lead from the first state to the last.
-/
namespace RecordMachine

/-- Makes a change again, if its cell holds the value that was overwritten. -/
def Effect.replay (s : State) : Effect → Option State
  | .registerWrite register before after =>
    if s.readRegister? register = some before then some (s.writeRegister register after) else none
  | .memoryWrite address before after =>
    if s.readMemory? address = some before then some (s.writeMemory address after) else none
  | .divisionByZero .. => some s

/-- The notice that is due behind an entry, by the state in front of it. -/
def JournalEntry.notice? (e : JournalEntry) (s : State) : Option JournalEntry :=
  match e.instruction with
  | .mod address aReg bReg =>
    if s.readRegister? bReg = some 0 then
      (s.readRegister? aReg).map fun dividend =>
        { e with effect := .divisionByZero address dividend }
    else none
  | .loadConst .. | .readMem .. | .writeMem .. => none

theorem JournalEntry.isNotice_of_mem_notice? {e notice : JournalEntry} {s : State}
    (h : notice ∈ e.notice? s) : notice.isNotice = true := by
  unfold notice? at h
  split at h
  next =>
    split at h
    next =>
      obtain ⟨dividend, -, rfl⟩ := Option.map_eq_some_iff.mp h
      rfl
    next => cases h
  all_goals cases h

namespace Journal

def changes (journal : Journal) : Journal := journal.filter (!·.isNotice)

def replay (s : State) (journal : Journal) : Option State :=
  journal.foldlM (fun s e => e.effect.replay s) s

theorem changes_change {e : JournalEntry} (h : e.isNotice = false) (s : State) (journal : Journal) :
    changes (e :: ((e.notice? s).toList ++ journal)) = e :: changes journal := by
  rw [changes, List.filter_cons_of_pos (by rw [h]; rfl), List.filter_append]
  cases hn : e.notice? s with
  | none => rfl
  | some notice =>
    have := JournalEntry.isNotice_of_mem_notice? hn
    simp [changes, this]

end Journal

namespace State

def applyAll (s : State) (p : Program) : State := p.foldl (fun s i => (s.apply i).1) s

def entries (s : State) (k : Nat) (i : Instruction) : Journal :=
  (s.apply i).2.map fun effect => ⟨k, k * Record.size, i, effect⟩

/-- The instruction leaves the entry `e`, a change that can be made again, and behind it the notice
that is due, if there is one. -/
structure Leaves (s : State) (k : Nat) (i : Instruction) (e : JournalEntry) : Prop where
  entries_eq : s.entries k i = e :: (e.notice? s).toList
  isNotice : e.isNotice = false
  step : e.step = k
  offset : e.offset = k * Record.size
  instruction : e.instruction = i
  replay : e.effect.replay s = some (s.apply i).1
  cleared : ∀ notice ∈ e.notice? s, ∃ address old dividend,
    e.effect = .memoryWrite address old 0 ∧ notice.effect = .divisionByZero address dividend

/-- The journal of a program that starts at the record with index `k`. -/
def journal (s : State) (k : Nat) : Program → Journal
  | [] => []
  | i :: p => s.entries k i ++ (s.apply i).1.journal (k + 1) p

/-- What a run gives that executes the program from this state on and then ends. -/
def outcome (s : State) (p : Program) : Ending → Except RunFault RunResult
  | .halt => .ok ⟨s.applyAll p, s.journal 0 p, p.length⟩
  | .fault error => .error ⟨p.length * Record.size, error, s.journal 0 p, s.applyAll p⟩

section

variable {s : State} {memorySize : Nat}

theorem replay_setRegister (h : s.Sized memorySize) {r : UInt8} (hr : r.toNat < registerCount)
    (value : Word) : (s.setRegister r value).2.replay s = some (s.setRegister r value).1 := by
  rw [setRegister, Effect.replay, if_pos (h.readRegister?_eq_some hr)]

theorem replay_setMemory (h : s.Sized memorySize) {a : UInt16} (ha : a.toNat < memorySize)
    (value : Word) : (s.setMemory a value).2.replay s = some (s.setMemory a value).1 := by
  rw [setMemory, Effect.replay, if_pos (h.readMemory?_eq_some ha)]

theorem exists_leaves_mod (h : s.Sized memorySize) {dstAddr : UInt16} {aReg bReg : UInt8}
    (hd : dstAddr.toNat < memorySize) (ha : aReg.toNat < registerCount)
    (hb : bReg.toNat < registerCount) (k : Nat) :
    ∃ e, s.Leaves k (.mod dstAddr aReg bReg) e := by
  have hA := h.readRegister?_eq_some ha
  have hB := h.readRegister?_eq_some hb
  by_cases hz : (s.readRegister? bReg).getD 0 = 0
  · let dividend := (s.readRegister? aReg).getD 0
    let e : JournalEntry :=
      ⟨k, k * Record.size, .mod dstAddr aReg bReg, (s.setMemory dstAddr 0).2⟩
    have happly : s.apply (.mod dstAddr aReg bReg) =
        ((s.setMemory dstAddr 0).1, [e.effect, .divisionByZero dstAddr dividend]) := if_pos hz
    have hnotice : e.notice? s = some { e with effect := .divisionByZero dstAddr dividend } := by
      rw [hz] at hB
      simp only [JournalEntry.notice?, e, if_pos hB]
      rw [hA, Option.map_some]
    refine ⟨e, ?_, rfl, rfl, rfl, rfl, ?_, ?_⟩
    · rw [entries, happly, hnotice]
      rfl
    · rw [happly]
      exact replay_setMemory h hd 0
    · intro notice hm
      rw [hnotice] at hm
      cases hm
      exact ⟨dstAddr, _, dividend, rfl, rfl⟩
  · let value := (s.readRegister? aReg).getD 0 % (s.readRegister? bReg).getD 0
    let e : JournalEntry :=
      ⟨k, k * Record.size, .mod dstAddr aReg bReg, (s.setMemory dstAddr value).2⟩
    have happly : s.apply (.mod dstAddr aReg bReg) = ((s.setMemory dstAddr value).1, [e.effect]) :=
      if_neg hz
    have hne : s.readRegister? bReg ≠ some 0 := by
      intro hzero
      rw [hzero] at hz
      exact hz rfl
    have hnotice : e.notice? s = none := if_neg hne
    refine ⟨e, ?_, rfl, rfl, rfl, rfl, ?_, ?_⟩
    · rw [entries, happly, hnotice]
      rfl
    · rw [happly]
      exact replay_setMemory h hd value
    · intro notice hm
      rw [hnotice] at hm
      cases hm

theorem exists_leaves (h : s.Sized memorySize) {i : Instruction}
    (hc : i.missingCell? memorySize = none) (k : Nat) : ∃ e, s.Leaves k i e := by
  obtain ⟨hr, ha⟩ := Instruction.lt_of_missingCell?_eq_none hc
  cases i with
  | loadConst dst imm =>
    have hd := hr dst (List.mem_singleton.mpr rfl)
    exact ⟨⟨k, _, _, (s.setRegister dst imm).2⟩, rfl, rfl, rfl, rfl, rfl,
      replay_setRegister h hd imm, nofun⟩
  | readMem dst addr =>
    have hd := hr dst (List.mem_singleton.mpr rfl)
    exact ⟨⟨k, _, _, (s.setRegister dst _).2⟩, rfl, rfl, rfl, rfl, rfl,
      replay_setRegister h hd _, nofun⟩
  | writeMem addr src =>
    exact ⟨⟨k, _, _, (s.setMemory addr _).2⟩, rfl, rfl, rfl, rfl, rfl,
      replay_setMemory h (ha addr rfl) _, nofun⟩
  | mod dstAddr aReg bReg =>
    exact exists_leaves_mod h (ha dstAddr rfl) (hr aReg List.mem_cons_self)
      (hr bReg (List.mem_cons_of_mem _ List.mem_cons_self)) k

variable {p : Program}

theorem journal_cons (s : State) (k : Nat) (i : Instruction) (p : Program) :
    s.journal k (i :: p) = s.entries k i ++ (s.apply i).1.journal (k + 1) p := rfl

theorem changes_journal (h : s.Sized memorySize) (hp : ∀ i ∈ p, i.missingCell? memorySize = none)
    (k : Nat) :
    (s.journal k p).changes.map (fun e => (e.step, e.offset, e.instruction)) =
      (p.zipIdx k).map fun (i, j) => (j, j * Record.size, i) := by
  induction p generalizing s k with
  | nil => rfl
  | cons i p ih =>
    obtain ⟨hi, hrest⟩ := List.forall_mem_cons.mp hp
    obtain ⟨e, he⟩ := exists_leaves h hi k
    rw [journal_cons, he.entries_eq, List.cons_append, Journal.changes_change he.isNotice,
      List.map_cons, ih (h.apply i) hrest, he.step, he.offset, he.instruction]
    rfl

theorem map_instruction_journal (h : s.Sized memorySize)
    (hp : ∀ i ∈ p, i.missingCell? memorySize = none) (k : Nat) :
    (s.journal k p).changes.map JournalEntry.instruction = p := by
  have hi := congrArg (List.map (·.2.2)) (changes_journal h hp k)
  rw [List.map_map, List.map_map] at hi
  exact hi.trans (List.zipIdx_map_fst k p)

end

end State

namespace Machine

theorem state_foldl_after (m : Machine) (p : Program) :
    (p.foldl after m).state = m.state.applyAll p := by
  induction p generalizing m with
  | nil => rfl
  | cons i p ih => exact ih (m.after i)

theorem At.journal_foldl_after {m : Machine} {stream : List UInt8} {config : Config} {k : Nat}
    (h : m.At stream config k) {p : Program} {ending : Ending}
    (c : Course stream config k p ending) :
    (p.foldl Machine.after m).journal.toList = m.journal.toList ++ m.state.journal k p := by
  induction c generalizing m with
  | ends he => exact (List.append_nil _).symm
  | @next k i p ending hn hi hc rest ih =>
    have hentries : m.entries i = m.state.entries k i := by
      rw [Machine.entries, h.steps, h.offset]
      rfl
    have hj : (m.after i).journal.toList = m.journal.toList ++ m.state.entries k i := by
      rw [← hentries]
      exact Array.toList_appendList
    rw [List.foldl_cons, ih (h.step_eq hn hi).2, hj, List.append_assoc]
    rfl

/-- A run gives what its course leaves behind zeros. -/
theorem exists_outcome (stream : List UInt8) (config : Config) (hpos : 0 < config.memorySize)
    (hmax : config.memorySize ≤ 65536) :
    ∃ m, start stream config = .ok m ∧ m.At stream config 0 ∧
      m.state = .zero config.memorySize ∧
      ∀ p ending, Course stream config 0 p ending →
        m.run = (State.zero config.memorySize).outcome p ending := by
  obtain ⟨m, hm, h, hstate, hjournal⟩ := exists_start stream hpos hmax
  refine ⟨m, hm, h, hstate, fun p ending c => ?_⟩
  have hl := h.foldl_after c
  have hj := h.journal_foldl_after c
  rw [hjournal, hstate] at hj
  rw [h.run_eq c]
  cases ending with
  | halt =>
    rw [result, state_foldl_after, hl.steps, hj, hstate, Nat.zero_add]
    rfl
  | fault error =>
    rw [result, state_foldl_after, hl.offset, hj, hstate, Nat.zero_add]
    rfl

theorem exists_run (stream : List UInt8) {config : Config} (hpos : 0 < config.memorySize)
    (hmax : config.memorySize ≤ 65536) :
    ∃ m p ending, start stream config = .ok m ∧ Course stream config 0 p ending ∧
      ((ending = .halt ∧
          m.run = .ok ⟨(State.zero config.memorySize).applyAll p,
            (State.zero config.memorySize).journal 0 p, p.length⟩) ∨
        ∃ error, ending = .fault error ∧
          m.run = .error ⟨p.length * Record.size, error,
            (State.zero config.memorySize).journal 0 p,
            (State.zero config.memorySize).applyAll p⟩) := by
  obtain ⟨m, hm, h, -, houtcome⟩ := exists_outcome stream config hpos hmax
  obtain ⟨p, ending, c⟩ := h.exists_course
  refine ⟨m, p, ending, hm, c, ?_⟩
  rw [houtcome p ending c]
  cases ending with
  | halt => exact .inl ⟨rfl, rfl⟩
  | fault error => exact .inr ⟨error, rfl, rfl⟩

end Machine

end RecordMachine
