import Mathlib.Control.Monad.Basic
import RecordMachine.CommandLine.Command
import RecordMachine.Proofs.Staging
/-!
# Assembling that fails

A program that cannot be read or assembled touches no file. Later on the stream comes into place
before the log, and a log that cannot follow takes the stream away again, but no copy is kept of
what stood in its place.
-/
namespace RecordMachine

open Files Files.Tree

variable {t after : Tree} {mark : String}

theorem run_readText (path : Path) (t : Tree) :
    ∃ answer, (readText path : StateM Tree _).run t = (answer, t) := by
  have hread : (FileSystem.read path : StateM Tree _).run t = (t.read path, t) := rfl
  rw [readText, run_bind_of_run hread]
  cases t.read path with
  | error e => exact ⟨_, rfl⟩
  | ok bytes =>
    dsimp only
    cases String.fromUTF8? ⟨bytes.toArray⟩ with
    | none => exact ⟨_, rfl⟩
    | some text => exact ⟨_, rfl⟩

theorem run_assembleFile (path : Path) (t : Tree) :
    ∃ answer, (assembleFile path : StateM Tree _).run t = (answer, t) := by
  obtain ⟨answer, hr⟩ := run_readText path t
  rw [assembleFile, run_bind_of_run hr]
  cases answer with
  | error cause => exact ⟨_, rfl⟩
  | ok source => exact ⟨_, rfl⟩

namespace AssembleCommand

theorem run_cases (mark : String) (c : AssembleCommand) (t : Tree) :
    (∃ e, (c.run mark : StateM Tree _).run t = (.error e, t)) ∨
    ∃ stream log answer after,
      (writeAll mark [(c.binaryOut, stream), (c.logOut, log)] : StateM Tree _).run t =
        (answer, after) ∧
      (c.run mark : StateM Tree _).run t = (answer.mapError .outputUnwritten, after) := by
  obtain ⟨answer, hr⟩ := run_assembleFile c.program t
  rw [run, run_bind_of_run hr]
  cases answer with
  | error e =>
    cases e with
    | unreadable cause => exact Or.inl ⟨_, rfl⟩
    | rejected cause => exact Or.inl ⟨_, rfl⟩
  | ok assembly => exact Or.inr ⟨_, _, _, _, rfl, rfl⟩

/-- Assembling that fails leaves the tree as it was, if no temporary file is in the way. -/
def FailsWithoutTrace (mark : String) (c : AssembleCommand) (t : Tree) : Prop :=
  t.Absent (c.binaryOut.temporary mark) → t.Absent (c.logOut.temporary mark) →
    ∀ e after, (c.run mark : StateM Tree _).run t = (.error e, after) → after = t

/-- A program without rows, whose stream and log are to have the same name. -/
def sharedOutput : AssembleCommand := ⟨"p.csv", "out", "out", .csv⟩

def sharedOutputTree : Tree := ⟨[(["out"], .file [111, 108, 100]), (["p.csv"], .file [])]⟩

theorem run_sharedOutput :
    (sharedOutput.run "PID" : StateM Tree _).run sharedOutputTree =
      (.error (.outputUnwritten (.notMoved ".out.PID.tmp" "out" .notFound)),
        ⟨[(["p.csv"], .file [])]⟩) := by
  show @Eq (Except CommandError Unit × Tree) _ _
  decide +kernel

theorem not_failsWithoutTrace : ¬FailsWithoutTrace "PID" sharedOutput sharedOutputTree := by
  intro h
  have hkept := h (by decide +kernel) (by decide +kernel) _ _ run_sharedOutput
  exact absurd hkept (by decide)

theorem writeAll_pair_error {first second : Path × List UInt8} {e : WriteError}
    (h : (writeAll mark [first, second] : StateM Tree _).run t = (.error e, after))
    (hfirst : t.Absent (first.1.temporary mark)) (hsecond : t.Absent (second.1.temporary mark)) :
    after = t ∨ ∃ cause location contents,
      e = .notMoved (second.1.temporary mark) second.1 cause ∧
      t.locate first.1 = .ok location ∧ t.node? location = some (.file contents) ∧
      after = t.erase location := by
  have ha : ∀ file ∈ [first, second], t.Absent (file.1.temporary mark) := by
    simp [hfirst, hsecond]
  rcases writeAll_error ha h with hkept | ⟨done, file, left, cause, hfiles, he, hdone, hu⟩
  · exact Or.inl hkept
  · cases done with
    | nil => exact Or.inl (hu.trans t.clear_nil)
    | cons d done =>
      obtain ⟨rfl, rfl, rfl⟩ : d = first ∧ done = [] ∧ file = second := by
        cases done <;> simp_all
      obtain ⟨hd, location, hl⟩ := hdone d (List.mem_singleton_self d)
      have hplaces : t.places ([d].map Prod.fst) = [location] := by
        simp [places, place?_eq_some_iff.mpr hl]
      rw [hplaces] at hu
      cases hn : t.node? location with
      | none => exact Or.inl (hu.trans (clear_eq_self (by simpa using hn)))
      | some node =>
        cases node with
        | directory => exact absurd hn (isDirectory_eq_false_iff.mp hd location hl)
        | file contents =>
          exact Or.inr ⟨cause, location, contents, he, hl, hn,
            hu.trans (t.erase_eq_clear location).symm⟩

/-- Assembling that fails leaves the tree as it was and no temporary file behind, if none was in the
way, unless the stream had replaced a file before the log could not be moved: then this file is
gone. -/
theorem rollback_of_run_eq_error {c : AssembleCommand} {e : CommandError}
    (hstream : t.Absent (c.binaryOut.temporary mark)) (hlog : t.Absent (c.logOut.temporary mark))
    (h : (c.run mark : StateM Tree _).run t = (.error e, after)) :
    after.Absent (c.binaryOut.temporary mark) ∧ after.Absent (c.logOut.temporary mark) ∧
      (after = t ∨ ∃ cause location contents,
        e = .outputUnwritten (.notMoved (c.logOut.temporary mark) c.logOut cause) ∧
        t.locate c.binaryOut = .ok location ∧ t.node? location = some (.file contents) ∧
        after = t.erase location) := by
  rcases c.run_cases mark t with ⟨e', hr⟩ | ⟨stream, log, answer, u, hw, hr⟩
  · rw [hr] at h
    cases h
    exact ⟨hstream, hlog, Or.inl rfl⟩
  · rw [hr] at h
    cases answer with
    | ok _ => cases h
    | error cause =>
      cases h
      rcases writeAll_pair_error hw hstream hlog with
        rfl | ⟨cause, location, contents, rfl, hl, hn, rfl⟩
      · exact ⟨hstream, hlog, Or.inl rfl⟩
      · have hfile : t.node? location ≠ some .directory := by simp [hn]
        exact ⟨hstream.erase hfile, hlog.erase hfile,
          Or.inr ⟨cause, location, contents, rfl, hl, hn, rfl⟩⟩

theorem rollback_of_run_eq_error_sharedOutput :
    ∃ e after location contents,
      (sharedOutput.run "PID" : StateM Tree _).run sharedOutputTree = (.error e, after) ∧
      sharedOutputTree.locate "out" = .ok location ∧
      sharedOutputTree.node? location = some (.file contents) ∧
      after = sharedOutputTree.erase location := by
  obtain ⟨-, -, hkept | ⟨cause, location, contents, -, hl, hn, hafter⟩⟩ :=
    rollback_of_run_eq_error (by decide +kernel) (by decide +kernel) run_sharedOutput
  · exact absurd hkept (by decide)
  · exact ⟨_, _, location, contents, run_sharedOutput, hl, hn, hafter⟩

end AssembleCommand

end RecordMachine
