import RecordMachine.Machine.Execution
import RecordMachine.Program
/-!
# The machine

The machine reads its stream record by record. It halts at the end of the
stream and faults at the first record that it cannot execute; a step that
faults changes nothing but the status.
-/
namespace RecordMachine

structure Config where
  memorySize : Nat
  maxSteps : Option Nat
  deriving DecidableEq, Repr

/-- A machine has some memory and no more than its addresses reach. -/
def Config.validate (c : Config) : Except ConfigError Unit :=
  if c.memorySize = 0 then .error .noMemory
  else if State.maxMemorySize < c.memorySize then
    .error (.tooMuchMemory c.memorySize State.maxMemorySize)
  else .ok ()

/-- A machine that has faulted keeps the error that stopped it. -/
inductive Status
  | ready | running | halted
  | faulted (error : MachineError)
  deriving DecidableEq, Repr

namespace Status

def hasStopped : Status → Bool
  | .halted | .faulted _ => true
  | .ready | .running => false

def name : Status → String
  | .ready => "Ready" | .running => "Running" | .halted => "Halted" | .faulted _ => "Faulted"

end Status

structure Machine where
  /-- The bytes that are not yet executed. -/
  unread : List UInt8
  /-- The number of bytes that are executed. -/
  offset : Nat
  state : State
  status : Status
  journal : Array JournalEntry
  steps : Nat
  maxSteps : Option Nat
  deriving DecidableEq, Repr

structure RunResult where
  state : State
  journal : Journal
  steps : Nat
  deriving DecidableEq, Repr

structure RunFault where
  offset : Nat
  error : MachineError
  journal : Journal
  state : State
  deriving DecidableEq, Repr

def RunFault.message (f : RunFault) : String :=
  s!"execution faulted at offset {f.offset}: {f.error.message}"

namespace Machine

def start (stream : List UInt8) (config : Config) : Except MachineError Machine := do
  config.validate.mapError .config
  return { unread := stream, offset := 0, state := .zero config.memorySize, status := .ready,
           journal := #[], steps := 0, maxSteps := config.maxSteps }

def ofProgram (p : Program) (config : Config) : Except MachineError Machine := do
  start (← p.toBytes.mapError .codec) config

def fetch (m : Machine) : Except MachineError (Record × List UInt8) :=
  match m.unread with
  | tag :: b1 :: b2 :: b3 :: b4 :: b5 :: rest => .ok (⟨tag, b1, b2, b3, b4, b5⟩, rest)
  | short => .error (.partialRecord m.offset short.length)

def decode (m : Machine) (r : Record) : Except MachineError Instruction :=
  match r.decode with
  | .ok i => .ok i
  | .error (.unknownTag tag) => .error (.unknownOpcode m.offset tag)
  | .error error => .error (.codec error)

def checkLimit (m : Machine) : Except MachineError Unit :=
  match m.maxSteps with
  | some limit => if limit ≤ m.steps then .error (.stepLimit limit) else .ok ()
  | none => .ok ()

/-- The machine after the next record, unless the limit, the record or a cell forbids it. -/
def advance (m : Machine) : Except MachineError Machine := do
  m.checkLimit
  let (r, rest) ← m.fetch
  let i ← m.decode r
  let (state, entries) ← m.state.execute i m.offset m.steps
  return { m with unread := rest, offset := m.offset + Record.size, state, status := .running,
                  journal := m.journal ++ entries, steps := m.steps + 1 }

/-- One step: the answer to it, and the machine after it. A machine that has stopped stays put. -/
def step (m : Machine) : Except MachineError Status × Machine :=
  if m.status.hasStopped then (.ok m.status, m)
  else if m.unread.isEmpty then (.ok .halted, { m with status := .halted })
  else
    match m.advance with
    | .ok next => (.ok .running, next)
    | .error error => (.error error, { m with status := .faulted error })

theorem length_lt_of_fetch {m : Machine} {r : Record} {rest : List UInt8}
    (h : m.fetch = .ok (r, rest)) : rest.length < m.unread.length := by
  unfold fetch at h
  split at h
  next tag b1 b2 b3 b4 b5 more hm =>
    cases h
    simp only [hm, List.length_cons]
    omega
  next => cases h

theorem unread_length_lt_of_advance {m next : Machine} (h : m.advance = .ok next) :
    next.unread.length < m.unread.length := by
  unfold advance at h
  cases hl : m.checkLimit with
  | error e => simp [hl, bind, Except.bind] at h
  | ok u =>
    cases hf : m.fetch with
    | error e => simp [hl, hf, bind, Except.bind] at h
    | ok found =>
      cases hd : m.decode found.1 with
      | error e => simp [hl, hf, hd, bind, Except.bind] at h
      | ok i =>
        cases hx : m.state.execute i m.offset m.steps with
        | error e => simp [hl, hf, hd, hx, bind, Except.bind] at h
        | ok after =>
          simp only [hl, hf, hd, hx, bind, Except.bind, pure, Except.pure, Except.ok.injEq] at h
          subst next
          exact length_lt_of_fetch hf

theorem unread_length_lt_of_step {m next : Machine} (h : m.step = (.ok .running, next)) :
    next.unread.length < m.unread.length := by
  unfold step at h
  split at h
  next ht =>
    obtain ⟨hs, -⟩ := Prod.mk.inj h
    rw [Except.ok.inj hs] at ht
    cases ht
  next =>
    split at h
    next => simp at h
    next =>
      split at h
      next ha =>
        obtain ⟨-, rfl⟩ := Prod.mk.inj h
        exact unread_length_lt_of_advance ha
      next => simp at h

/-- Steps until the machine halts or faults. A machine that has faulted before gives its fault
again. This differs from a loop that goes on after every answer but a halt or an error: such a
machine only answers with its status, and the loop would never return. -/
def run (m : Machine) : Except RunFault RunResult :=
  match _h : m.step with
  | (.ok .running, next) => next.run
  | (.error error, last) => .error ⟨last.offset, error, last.journal.toList, last.state⟩
  | (.ok (.faulted error), last) => .error ⟨last.offset, error, last.journal.toList, last.state⟩
  | (.ok _, last) => .ok ⟨last.state, last.journal.toList, last.steps⟩
termination_by m.unread.length
decreasing_by exact unread_length_lt_of_step _h

end Machine

end RecordMachine
