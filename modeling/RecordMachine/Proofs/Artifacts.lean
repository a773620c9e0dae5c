import Mathlib.Control.Monad.Basic
import RecordMachine.CommandLine.Command
import RecordMachine.Proofs.DumpedCells
import RecordMachine.Proofs.RecordFiles
import RecordMachine.Proofs.Run
import RecordMachine.Proofs.Staging
/-!
# Artifacts of an execution

An execution writes the journal of its run, whether the run halts or faults, and after a run that
halts the cells it is asked for. Whatever fails, nothing else in the tree changes.
-/
namespace RecordMachine

open Files Files.Tree

variable {t after : Tree} {mark : String}

/-! ## Executions -/

def Machine.runJournal (m : Machine) : Journal :=
  match m.run with
  | .ok result => result.journal
  | .error fault => fault.journal

theorem Machine.memorySize_of_start {stream : List UInt8} {config : Config} {m : Machine}
    (h : Machine.start stream config = .ok m) :
    0 < config.memorySize ∧ config.memorySize ≤ 65536 := by
  cases hv : config.validate with
  | error e =>
    rw [start_of_validate_eq_error hv] at h
    cases h
  | ok _ => exact Config.memorySize_of_validate hv

namespace ExecuteCommand

theorem run_eq (mark : String) (c : ExecuteCommand) (t : Tree) :
    (c.run mark : StateM Tree _).run t =
      match t.read c.binary with
      | .error cause => (.error (.binaryUnreadable c.binary cause), t)
      | .ok stream =>
        match Machine.start stream c.config with
        | .error cause => (.error (.machineRefused cause), t)
        | .ok m =>
          match m.run with
          | .error fault =>
            match (c.writeTrace mark fault.journal : StateM Tree _).run t with
            | (.error cause, u) => (.error (.faultUnrecorded c.binary fault cause), u)
            | (.ok (), u) => (.error (.runFaulted c.binary fault), u)
          | .ok result =>
            match (c.writeTrace mark result.journal : StateM Tree _).run t with
            | (.error cause, u) => (.error (.outputUnwritten cause), u)
            | (.ok (), u) => (c.writeDump mark result.state : StateM Tree _).run u := by
  have hread : (FileSystem.read c.binary : StateM Tree _).run t = (t.read c.binary, t) := rfl
  rw [run, run_bind_of_run hread]
  cases t.read c.binary with
  | error cause => rfl
  | ok stream =>
    dsimp only
    cases Machine.start stream c.config with
    | error cause => rfl
    | ok m =>
      dsimp only
      cases m.run with
      | error fault =>
        dsimp only
        cases hw : (c.writeTrace mark fault.journal : StateM Tree _).run t with
        | mk answer u =>
          rw [run_bind_of_run hw]
          cases answer with
          | error cause => rfl
          | ok _ => rfl
      | ok result =>
        dsimp only
        cases hw : (c.writeTrace mark result.journal : StateM Tree _).run t with
        | mk answer u =>
          rw [run_bind_of_run hw]
          cases answer with
          | error cause => rfl
          | ok _ => rfl

theorem writeTrace_cases {c : ExecuteCommand} (ha : t.Absent (c.traceOut.temporary mark))
    (journal : Journal) :
    (∃ e, (∀ location, ¬Receives t mark c.traceOut location) ∧
      (c.writeTrace mark journal : StateM Tree _).run t = (.error e, t)) ∨
    ∃ location, Receives t mark c.traceOut location ∧
      (c.writeTrace mark journal : StateM Tree _).run t =
        (.ok (), t.put location (.file (textFile (journal.lines c.format)))) := by
  rw [writeTrace, Journal.render_eq]
  exact write_cases ha _

theorem writeDump_cases {c : ExecuteCommand} (ha : t.Absent (c.dumpOut.temporary mark))
    (state : State) :
    (∃ e, (c.range.Within (state.store c.store).size →
        ∀ location, ¬Receives t mark c.dumpOut location) ∧
      (c.writeDump mark state : StateM Tree _).run t = (.error e, t)) ∨
    ∃ location, ∃ dump : Dump, c.range.Within (state.store c.store).size ∧
      Receives t mark c.dumpOut location ∧ dump.Lists (state.store c.store) c.range ∧
      (c.writeDump mark state : StateM Tree _).run t =
        (.ok (), t.put location (.file (textFile (dump.lines c.format)))) := by
  rw [writeDump, State.dump]
  by_cases hw : c.range.Within (state.store c.store).size
  · obtain ⟨dump, hd, hl⟩ := Dump.exists_ofCells hw c.store
    rw [hd]
    dsimp only
    rw [Dump.render_eq]
    rcases write_cases ha (textFile (dump.lines c.format)) with
      ⟨e, hnone, hr⟩ | ⟨location, hreceives, hr⟩
    · exact Or.inl ⟨_, fun _ => hnone, run_bind_of_run hr⟩
    · exact Or.inr ⟨location, dump, hw, hreceives, hl, run_bind_of_run hr⟩
  · rw [Dump.ofCells_of_not_within hw c.store]
    exact Or.inl ⟨_, fun h => absurd h hw, rfl⟩

/-- There is no stream, no machine can have this much memory, or the trace has no place. -/
def Blocked (mark : String) (c : ExecuteCommand) (t : Tree) : Prop :=
  (∀ stream, t.read c.binary ≠ .ok stream) ∨ ¬(0 < c.memorySize ∧ c.memorySize ≤ 65536) ∨
    ∀ location, ¬Receives t mark c.traceOut location

theorem not_blocked {c : ExecuteCommand} {stream : List UInt8} {location : Location}
    (hread : t.read c.binary = .ok stream) (hsize : 0 < c.memorySize ∧ c.memorySize ≤ 65536)
    (htrace : Receives t mark c.traceOut location) : ¬Blocked mark c t := by
  intro h
  rcases h with hnone | hsize' | hnone
  · exact hnone stream hread
  · exact hsize' hsize
  · exact hnone location htrace

/-- The ways in which an execution ends. -/
inductive Exit (mark : String) (c : ExecuteCommand) (t : Tree) :
    Except CommandError Unit → Tree → Prop
  | untouched {e : CommandError} (h : Blocked mark c t) : Exit mark c t (.error e) t
  | traced {stream : List UInt8} {m : Machine} {location : Location} {e : CommandError}
      (hread : t.read c.binary = .ok stream) (hstart : Machine.start stream c.config = .ok m)
      (htrace : Receives t mark c.traceOut location)
      (h : ∀ result other, m.run = .ok result →
        c.range.Within (result.state.store c.store).size → ¬Receives t mark c.dumpOut other) :
      Exit mark c t (.error e) (t.put location (.file (textFile (m.runJournal.lines c.format))))
  | dumped {stream : List UInt8} {m : Machine} {location other : Location} {result : RunResult}
      {dump : Dump}
      (hread : t.read c.binary = .ok stream) (hstart : Machine.start stream c.config = .ok m)
      (htrace : Receives t mark c.traceOut location) (hrun : m.run = .ok result)
      (hwithin : c.range.Within (result.state.store c.store).size)
      (hdump : Receives t mark c.dumpOut other)
      (hlists : dump.Lists (result.state.store c.store) c.range) :
      Exit mark c t (.ok ())
        ((t.put location (.file (textFile (m.runJournal.lines c.format)))).put other
          (.file (textFile (dump.lines c.format))))

theorem exit_run {c : ExecuteCommand} {answer : Except CommandError Unit}
    (htrace : t.Absent (c.traceOut.temporary mark)) (hdump : t.Absent (c.dumpOut.temporary mark))
    (hapart : ∀ location, t.locate c.traceOut = .ok location →
      t.locate (c.dumpOut.temporary mark) ≠ .ok location)
    (hr : (c.run mark : StateM Tree _).run t = (answer, after)) : Exit mark c t answer after := by
  rw [run_eq] at hr
  cases hread : t.read c.binary with
  | error cause =>
    rw [hread] at hr
    cases hr
    refine .untouched (Or.inl fun stream h => ?_)
    rw [h] at hread
    cases hread
  | ok stream =>
    cases hstart : Machine.start stream c.config with
    | error cause =>
      simp only [hread, hstart] at hr
      cases hr
      refine .untouched (Or.inr (Or.inl fun hsize => ?_))
      obtain ⟨m, hm, -⟩ :=
        Machine.exists_start stream (show 0 < c.config.memorySize from hsize.1) hsize.2
      rw [hm] at hstart
      cases hstart
    | ok m =>
      simp only [hread, hstart] at hr
      cases hrun : m.run with
      | error fault =>
        have hj : m.runJournal = fault.journal := by rw [Machine.runJournal, hrun]
        simp only [hrun] at hr
        rcases writeTrace_cases htrace fault.journal with ⟨e, hnone, hw⟩ | ⟨location, hl, hw⟩
        · rw [hw] at hr
          cases hr
          exact .untouched (Or.inr (Or.inr hnone))
        · rw [hw, ← hj] at hr
          cases hr
          refine .traced hread hstart hl fun result other h => ?_
          rw [hrun] at h
          cases h
      | ok result =>
        have hj : m.runJournal = result.journal := by rw [Machine.runJournal, hrun]
        simp only [hrun] at hr
        rcases writeTrace_cases htrace result.journal with ⟨e, hnone, hw⟩ | ⟨location, hl, hw⟩
        · rw [hw] at hr
          cases hr
          exact .untouched (Or.inr (Or.inr hnone))
        · rw [hw, ← hj] at hr
          have hsame := sameDirectories_put hl.free (textFile (m.runJournal.lines c.format))
          -- the trace came into place beside the dump's temporary file, which is still absent
          have hdump' := hdump.put hl.free (hapart location hl.leads)
            (textFile (m.runJournal.lines c.format))
          rcases writeDump_cases hdump' result.state with
            ⟨e, hnone, hd⟩ | ⟨other, dump, hwithin, ho, hlists, hd⟩
          · obtain ⟨rfl, rfl⟩ := Prod.mk.inj (hd.symm.trans hr)
            refine .traced hread hstart hl fun result' other h hwithin ho => ?_
            obtain rfl := Except.ok.inj (hrun.symm.trans h)
            exact hnone hwithin other (ho.congr hsame)
          · obtain ⟨rfl, rfl⟩ := Prod.mk.inj (hd.symm.trans hr)
            exact .dumped hread hstart hl hrun hwithin (ho.congr hsame.symm) hlists

/-- An execution leaves the journal of its run and, exactly if it succeeds, the cells it is asked
for. Without a stream, a valid memory size and a place for the trace the tree stays as it was. -/
theorem run_leaves_artifacts {c : ExecuteCommand} {answer : Except CommandError Unit}
    (htrace : t.Absent (c.traceOut.temporary mark)) (hdump : t.Absent (c.dumpOut.temporary mark))
    (hapart : ∀ location, t.locate c.traceOut = .ok location →
      t.locate c.dumpOut ≠ .ok location ∧ t.locate (c.dumpOut.temporary mark) ≠ .ok location)
    (hr : (c.run mark : StateM Tree _).run t = (answer, after)) :
    (Blocked mark c t → (∃ e, answer = .error e) ∧ after = t) ∧
    ∀ stream place, t.read c.binary = .ok stream →
      0 < c.memorySize ∧ c.memorySize ≤ 65536 → Receives t mark c.traceOut place →
      ∃ m, Machine.start stream c.config = .ok m ∧
        after.node? place = some (.file (textFile (m.runJournal.lines c.format))) ∧
        (answer = .ok () ↔ ∃ result other, m.run = .ok result ∧
          c.range.Within (result.state.store c.store).size ∧ Receives t mark c.dumpOut other) ∧
        (∀ other, t.locate c.dumpOut = .ok other →
          (answer ≠ .ok () → after.node? other = t.node? other) ∧
          (answer = .ok () → ∃ result, ∃ dump : Dump, m.run = .ok result ∧
            dump.Lists (result.state.store c.store) c.range ∧
            after.node? other = some (.file (textFile (dump.lines c.format))))) ∧
        ∀ location, location ≠ place → t.locate c.dumpOut ≠ .ok location →
          after.node? location = t.node? location := by
  have hexit := exit_run htrace hdump (fun location hl => (hapart location hl).2) hr
  cases hexit with
  | untouched h =>
    refine ⟨fun _ => ⟨⟨_, rfl⟩, rfl⟩, fun stream place hread hsize hplace => ?_⟩
    exact absurd h (not_blocked hread hsize hplace)
  | @traced stream m location e hread hstart hl h =>
    refine ⟨fun hb => ?_, fun stream' place hread' hsize hplace => ?_⟩
    · exact absurd hb (not_blocked hread (Machine.memorySize_of_start hstart) hl)
    obtain rfl := Except.ok.inj (hread.symm.trans hread')
    obtain rfl := Except.ok.inj (hl.leads.symm.trans hplace.leads)
    refine ⟨m, hstart, node?_put_self (ne_nil_of_node?_ne hl.free) _, ?_, ?_, ?_⟩
    · refine ⟨nofun, fun hok => ?_⟩
      obtain ⟨result, other, hrun, hwithin, ho⟩ := hok
      exact absurd ho (h result other hrun hwithin)
    · intro other ho
      have hne : other ≠ location := fun he => (hapart location hl.leads).1 (he ▸ ho)
      exact ⟨fun _ => node?_put_of_ne hne _, nofun⟩
    · intro other hne _
      exact node?_put_of_ne hne _
  | @dumped stream m location other result dump hread hstart hl hrun hwithin ho hlists =>
    refine ⟨fun hb => ?_, fun stream' place hread' hsize hplace => ?_⟩
    · exact absurd hb (not_blocked hread (Machine.memorySize_of_start hstart) hl)
    obtain rfl := Except.ok.inj (hread.symm.trans hread')
    obtain rfl := Except.ok.inj (hl.leads.symm.trans hplace.leads)
    have hne : location ≠ other := fun he => (hapart location hl.leads).1 (he ▸ ho.leads)
    refine ⟨m, hstart, ?_, ?_, ?_, ?_⟩
    · rw [node?_put_of_ne hne, node?_put_self (ne_nil_of_node?_ne hl.free)]
    · exact ⟨fun _ => ⟨result, other, hrun, hwithin, ho⟩, fun _ => rfl⟩
    · intro other' ho'
      obtain rfl := Except.ok.inj (ho.leads.symm.trans ho')
      refine ⟨fun hok => absurd rfl hok, fun _ => ⟨result, dump, hrun, hlists, ?_⟩⟩
      exact node?_put_self (ne_nil_of_node?_ne ho.free) _
    · intro place hplace hplace'
      have hne' : place ≠ other := fun he => hplace' (he ▸ ho.leads)
      rw [node?_put_of_ne hne', node?_put_of_ne hplace]

def loadOne (format : Format) : ExecuteCommand :=
  ⟨"p.bin", "t", "d", ⟨0, 1⟩, 4, none, .registers, format⟩

def loadOneTree : Tree := ⟨[(["p.bin"], .file [6, 0, 0, 0, 0, 1])]⟩

theorem run_leaves_artifacts_loadOne :
    (∃ after, ((loadOne .csv).run "PID" : StateM Tree _).run loadOneTree = (.ok (), after) ∧
      after.node? ["t"] = some (.file (textFile
        ["step,offset,opcode,operands,effect", "0,0,LOAD_CONST,dst=0 imm=1,r0: 0 -> 1"])) ∧
      after.node? ["d"] = some (.file (textFile ["Address,Value", "0,1", "1,0"]))) ∧
    ∃ after, ((loadOne .json).run "PID" : StateM Tree _).run loadOneTree = (.ok (), after) ∧
      after.node? ["t"] = some (.file (textFile
        ["[",
          "  \x7b",
          "    \"step\": 0,",
          "    \"offset\": 0,",
          "    \"instruction\": \x7b",
          "      \"LoadConst\": \x7b",
          "        \"dst\": 0,",
          "        \"imm\": 1",
          "      \x7d",
          "    \x7d,",
          "    \"effect\": \x7b",
          "      \"kind\": \"register_write\",",
          "      \"register\": 0,",
          "      \"before\": 0,",
          "      \"after\": 1",
          "    \x7d",
          "  \x7d",
          "]"])) ∧
      after.node? ["d"] = some (.file (textFile
        ["[",
          "  \x7b",
          "    \"address\": 0,",
          "    \"value\": 1",
          "  \x7d,",
          "  \x7b",
          "    \"address\": 1,",
          "    \"value\": 0",
          "  \x7d",
          "]"])) := by
  have hfiles : ∀ format, ∃ after,
      ((loadOne format).run "PID" : StateM Tree _).run loadOneTree = (.ok (), after) ∧
      after.node? ["t"] = some (.file (textFile
        (Journal.lines [⟨0, 0, .loadConst 0 1, .registerWrite 0 0 1⟩] format))) ∧
      after.node? ["d"] = some (.file (textFile (Dump.lines [⟨0, 1⟩, ⟨1, 0⟩] format))) := by
    intro format
    let outcome : Except CommandError Unit × Tree :=
      ((loadOne format).run "PID" : StateM Tree _).run loadOneTree
    have hok : outcome.1 = .ok () := by cases format <;> decide +kernel
    have hr : ((loadOne format).run "PID" : StateM Tree _).run loadOneTree =
        (.ok (), outcome.2) :=
      congrArg (·, outcome.2) hok
    have hplace : loadOneTree.locate "t" = .ok ["t"] := by decide +kernel
    have hother : loadOneTree.locate "d" = .ok ["d"] := by decide +kernel
    have hapart : ∀ location, loadOneTree.locate "t" = .ok location →
        loadOneTree.locate "d" ≠ .ok location ∧
          loadOneTree.locate (Path.temporary "PID" "d") ≠ .ok location := by
      intro location hl
      obtain rfl := Except.ok.inj (hplace.symm.trans hl)
      exact ⟨by decide +kernel, by decide +kernel⟩
    have hreceives : Receives loadOneTree "PID" "t" ["t"] :=
      ⟨⟨"t", [], by decide +kernel, by decide, by decide, by decide⟩, hplace, by decide,
        [".t.PID.tmp"], by decide +kernel⟩
    have htrace : loadOneTree.Absent (Path.temporary "PID" "t") := by decide +kernel
    have hdump : loadOneTree.Absent (Path.temporary "PID" "d") := by decide +kernel
    have hread : loadOneTree.read "p.bin" = .ok [6, 0, 0, 0, 0, 1] := by decide +kernel
    have hsize : 0 < 4 ∧ 4 ≤ 65536 := by decide
    obtain ⟨-, hleaves⟩ := run_leaves_artifacts (c := loadOne format) htrace hdump hapart hr
    obtain ⟨m, hm, hjournal, -, hdumps, -⟩ := hleaves _ ["t"] hread hsize hreceives
    obtain ⟨result, dump, hrun, hlists, hd⟩ := (hdumps ["d"] hother).2 rfl
    cases hm
    have hhalts := hrun
    rw [Machine.run_of_running rfl, Machine.run_of_halted rfl] at hhalts
    cases hhalts
    rw [Machine.runJournal, hrun] at hjournal
    rw [hlists.eq_map] at hd
    exact ⟨outcome.2, hr, hjournal, hd⟩
  constructor
  · obtain ⟨after, hr, ht, hd⟩ := hfiles .csv
    exact ⟨after, hr, ht, hd⟩
  · obtain ⟨after, hr, ht, hd⟩ := hfiles .json
    exact ⟨after, hr, ht, hd⟩

end ExecuteCommand

end RecordMachine
