import Mathlib.Control.Monad.Basic
import RecordMachine.Proofs.Siblings
import RecordMachine.Proofs.Staging
/-!
# Only whole files are seen

Files are staged, committed and discarded in any order. Whatever has been done so far, what stands
outside of the temporary files is what was there at the start or a complete file that was staged for
this place.
-/
namespace RecordMachine.Files

open Files.Tree

/-! ## Sessions -/

/-- A tree, the staged files that wait in it, and every file that was staged before. -/
structure Session where
  tree : Tree
  pending : List Staged
  staged : List (Path × List UInt8)
  deriving DecidableEq

namespace Session

variable {t u : Tree} {mark : String} {targets : List Path} {session : Session}

def start (t : Tree) : Session := ⟨t, [], []⟩

def stage (mark : String) (target : Path) (contents : List UInt8) (session : Session) : Session :=
  match (Files.stage mark target contents : StateM Tree _).run session.tree with
  | (.ok s, t) => ⟨t, s :: session.pending, (target, contents) :: session.staged⟩
  | (.error _, t) => { session with tree := t }

def commit (s : Staged) (session : Session) : Session where
  tree := ((s.commit : StateM Tree _).run session.tree).2
  pending := session.pending.erase s
  staged := session.staged

def discard (s : Staged) (session : Session) : Session where
  tree := ((s.discard : StateM Tree _).run session.tree).2
  pending := session.pending.erase s
  staged := session.staged

/-- What operations on these targets lead to, each staged file being used at most once. -/
inductive Reached (mark : String) (targets : List Path) (t : Tree) : Session → Prop
  | start : Reached mark targets t (.start t)
  | stage {session : Session} {target : Path} (h : Reached mark targets t session)
      (ht : target ∈ targets) (contents : List UInt8) :
      Reached mark targets t (session.stage mark target contents)
  | commit {session : Session} {s : Staged} (h : Reached mark targets t session)
      (hs : s ∈ session.pending) : Reached mark targets t (session.commit s)
  | discard {session : Session} {s : Staged} (h : Reached mark targets t session)
      (hs : s ∈ session.pending) : Reached mark targets t (session.discard s)

def Waits (session : Session) (path : Path) : Prop :=
  ∃ s ∈ session.pending, ∃ place, session.tree.locate s.temporary = .ok place ∧
    session.tree.locate path = .ok place

/-- What holds of every session that started with this tree. -/
structure Sound (mark : String) (targets : List Path) (t : Tree) (session : Session) : Prop where
  sameDirectories : SameDirectories t session.tree
  pending : ∀ s ∈ session.pending, ∃ target ∈ targets, s = Staged.beside mark target
  staged : ∀ file ∈ session.staged, file.1 ∈ targets
  /-- Temporary files are complete, and each has a staged file that it belongs to. -/
  waiting : ∀ place ∈ t.places (targets.map (Path.temporary mark)),
    session.tree.node? place = none ∨
      (∃ s ∈ session.pending, t.locate s.temporary = .ok place) ∧
        ∃ file ∈ session.staged, t.locate (file.1.temporary mark) = .ok place ∧
          session.tree.node? place = some (.file file.2)
  whole : ∀ location ∉ t.places (targets.map (Path.temporary mark)),
    session.tree.node? location = t.node? location ∨
      ∃ file ∈ session.staged, t.locate file.1 = .ok location ∧
        session.tree.node? location = some (.file file.2)

theorem sound_start (h : ∀ target ∈ targets, t.Absent (target.temporary mark)) :
    Sound mark targets t (.start t) where
  sameDirectories := SameDirectories.refl t
  pending := nofun
  staged := nofun
  waiting := by
    intro place hm
    obtain ⟨target, ht, hl⟩ := mem_temporaries_iff.mp hm
    exact Or.inl (h target ht place hl)
  whole := fun _ _ => Or.inl rfl

theorem Sound.stage {target : Path} (h : Sound mark targets t session) (ht : target ∈ targets)
    (contents : List UInt8) : Sound mark targets t (session.stage mark target contents) := by
  rcases stage_cases mark target contents session.tree with ⟨e, -, hs⟩ | ⟨place, hp, hs⟩
  · have hsame : session.stage mark target contents = session := by
      rw [Session.stage, hs]
    rwa [hsame]
  · have hstage : session.stage mark target contents =
        ⟨session.tree.put place (.file contents), Staged.beside mark target :: session.pending,
          (target, contents) :: session.staged⟩ := by
      rw [Session.stage, hs]
    have hplace := h.sameDirectories.locate.mpr hp.leads
    rw [hstage]
    refine ⟨h.sameDirectories.trans (sameDirectories_put hp.free contents),
      List.forall_mem_cons.mpr ⟨⟨target, ht, rfl⟩, h.pending⟩,
      List.forall_mem_cons.mpr ⟨ht, h.staged⟩, fun other hm => ?_, fun location hm => ?_⟩
    · by_cases he : other = place
      · subst he
        exact Or.inr ⟨⟨_, List.mem_cons_self, hplace⟩, _, List.mem_cons_self, hplace,
          node?_put_self (ne_nil_of_node?_ne hp.free) _⟩
      · rw [node?_put_of_ne he]
        refine (h.waiting other hm).imp_right fun hw => ?_
        obtain ⟨⟨s, hs, hl⟩, file, hf, hn⟩ := hw
        exact ⟨⟨s, List.mem_cons_of_mem _ hs, hl⟩, file, List.mem_cons_of_mem _ hf, hn⟩
    · have hne : location ≠ place := by
        intro he
        exact hm (mem_temporaries_iff.mpr ⟨target, ht, he ▸ hplace⟩)
      rw [node?_put_of_ne hne]
      refine (h.whole location hm).imp_right fun hw => ?_
      obtain ⟨file, hf, hn⟩ := hw
      exact ⟨file, List.mem_cons_of_mem _ hf, hn⟩

theorem Sound.use {s : Staged} (h : Sound mark targets t session)
    (hsame : SameDirectories session.tree u)
    (hwaiting : ∀ place ∈ t.places (targets.map (Path.temporary mark)), u.node? place = none ∨
      t.locate s.temporary ≠ .ok place ∧ u.node? place = session.tree.node? place)
    (hwhole : ∀ location ∉ t.places (targets.map (Path.temporary mark)),
      u.node? location = session.tree.node? location ∨
        ∃ file ∈ session.staged, t.locate file.1 = .ok location ∧
          u.node? location = some (.file file.2)) :
    Sound mark targets t ⟨u, session.pending.erase s, session.staged⟩ where
  sameDirectories := h.sameDirectories.trans hsame
  pending := fun r hr => h.pending r (List.mem_of_mem_erase hr)
  staged := h.staged
  waiting := by
    intro place hm
    rcases hwaiting place hm with hn | ⟨hs, hn⟩
    · exact Or.inl hn
    rcases h.waiting place hm with hnone | ⟨⟨r, hr, hl⟩, file, hf, hlf, hfile⟩
    · exact Or.inl (hn.trans hnone)
    · have hne : r ≠ s := fun he => hs (he ▸ hl)
      exact Or.inr ⟨⟨r, (List.mem_erase_of_ne hne).mpr hr, hl⟩, file, hf, hlf, hn.trans hfile⟩
  whole := by
    intro location hm
    rcases hwhole location hm with hn | hfile
    · rcases h.whole location hm with hkept | ⟨file, hf, hl, hfile⟩
      · exact Or.inl (hn.trans hkept)
      · exact Or.inr ⟨file, hf, hl, hn.trans hfile⟩
    · exact Or.inr hfile

theorem Sound.isDirectory_temporary (h : Sound mark targets t session) {target : Path}
    (ht : target ∈ targets) : session.tree.isDirectory (target.temporary mark) = false := by
  refine isDirectory_eq_false_iff.mpr fun place hp => ?_
  have hm : place ∈ t.places (targets.map (Path.temporary mark)) :=
    mem_temporaries_iff.mpr ⟨target, ht, h.sameDirectories.locate.mpr hp⟩
  rcases h.waiting place hm with hn | ⟨-, file, -, -, hn⟩
  · simp [hn]
  · simp [hn]

theorem Sound.node?_without (h : Sound mark targets t session) {target : Path}
    (ht : target ∈ targets) (place : Location) :
    (session.tree.without (target.temporary mark)).node? place =
      if t.locate (target.temporary mark) = .ok place then none
      else session.tree.node? place := by
  have hfree := h.isDirectory_temporary ht
  rw [without_eq_clear hfree]
  split
  next hl =>
    have hp := h.sameDirectories.locate.mp hl
    have hne := ne_nil_of_node?_ne (isDirectory_eq_false_iff.mp hfree place hp)
    rw [node?_clear _ _ hne, if_pos (mem_toList_place?_iff.mpr hp)]
  next hl =>
    refine node?_clear_of_notMem fun hp => hl ?_
    exact h.sameDirectories.locate.mpr (mem_toList_place?_iff.mp hp)

theorem Sound.without {s : Staged} (h : Sound mark targets t session)
    (hs : s ∈ session.pending) :
    Sound mark targets t
      ⟨session.tree.without s.temporary, session.pending.erase s, session.staged⟩ := by
  obtain ⟨target, ht, rfl⟩ := h.pending s hs
  have hnode := h.node?_without ht
  refine h.use (sameDirectories_without _ _) (fun place hm => ?_) fun location hm => Or.inl ?_
  · by_cases hl : t.locate (target.temporary mark) = .ok place
    · exact Or.inl ((hnode place).trans (if_pos hl))
    · exact Or.inr ⟨hl, (hnode place).trans (if_neg hl)⟩
  · refine (hnode location).trans (if_neg fun hl => hm ?_)
    exact mem_temporaries_iff.mpr ⟨target, ht, hl⟩

theorem Sound.discard {s : Staged} (h : Sound mark targets t session)
    (hs : s ∈ session.pending) : Sound mark targets t (session.discard s) := by
  rw [Session.discard, s.run_discard]
  exact h.without hs

theorem Sound.commit {s : Staged} (hmark : '/' ∉ mark.toList)
    (hnormal : ∀ target ∈ targets, target.IsNormal) (hapart : t.Apart mark targets)
    (h : Sound mark targets t session) (hs : s ∈ session.pending) :
    Sound mark targets t (session.commit s) := by
  rcases s.commit_cases session.tree with ⟨cause, -, hc⟩ | ⟨moved, hmove, hc⟩
  · rw [Session.commit, hc]
    exact h.without hs
  · rw [Session.commit, hc]
    obtain ⟨target, ht, rfl⟩ := h.pending s hs
    have hsame := sameDirectories_move hmove
    obtain ⟨-, -, origin, location, contents, ho, hl, hn, hfree, rfl⟩ :=
      move_eq_ok_iff.mp hmove
    replace ho := h.sameDirectories.locate.mpr ho
    replace hl := h.sameDirectories.locate.mpr hl
    have horigin : origin ∈ t.places (targets.map (Path.temporary mark)) :=
      mem_temporaries_iff.mpr ⟨target, ht, ho⟩
    have hlocation : location ∉ t.places (targets.map (Path.temporary mark)) :=
      hapart location (mem_places_iff.mpr ⟨target, ht, hl⟩)
    -- the file that waited may have been staged under another path to the same target
    obtain ⟨file, hf, hfile, rfl⟩ : ∃ file ∈ session.staged,
        t.locate file.1 = .ok location ∧ contents = file.2 := by
      rcases h.waiting origin horigin with hnone | ⟨-, file, hf, hshared, hfile⟩
      · simp [hnone] at hn
      · refine ⟨file, hf, ?_, by simpa [hfile] using hn.symm⟩
        exact locate_of_temporary hmark (hnormal _ (h.staged file hf)) (hnormal target ht) hl ho
          hshared
    refine h.use hsame (fun place hm => ?_) fun other hm => ?_
    · have hpl : place ≠ location := fun he => hlocation (he ▸ hm)
      by_cases he : place = origin
      · subst he
        left
        rw [node?_put_of_ne hpl,
          node?_erase_self (ne_nil_of_node?_ne (t := session.tree) (by simp [hn]))]
      · exact Or.inr ⟨fun hp => he (Except.ok.inj (hp.symm.trans ho)), node?_moved he hpl⟩
    · by_cases he : other = location
      · subst he
        exact Or.inr ⟨file, hf, hfile, node?_put_self (ne_nil_of_node?_ne hfree) _⟩
      · exact Or.inl (node?_moved (fun heq => hm (heq ▸ horigin)) he)

theorem sound_of_reached (hmark : '/' ∉ mark.toList)
    (hnormal : ∀ target ∈ targets, target.IsNormal)
    (habsent : ∀ target ∈ targets, t.Absent (target.temporary mark))
    (hapart : t.Apart mark targets) (h : Reached mark targets t session) :
    Sound mark targets t session := by
  induction h with
  | start => exact sound_start habsent
  | stage _ ht contents ih => exact ih.stage ht contents
  | commit _ hs ih => exact ih.commit hmark hnormal hapart hs
  | discard _ hs ih => exact ih.discard hs

theorem Sound.absent (h : Sound mark targets t session) {target : Path} (ht : target ∈ targets)
    (hw : ¬session.Waits (target.temporary mark)) :
    session.tree.Absent (target.temporary mark) := by
  intro place hp
  have hl := h.sameDirectories.locate.mpr hp
  have hm := mem_temporaries_iff.mpr ⟨target, ht, hl⟩
  refine (h.waiting place hm).resolve_right fun hfile => hw ?_
  obtain ⟨⟨s, hs, hls⟩, -⟩ := hfile
  exact ⟨s, hs, place, h.sameDirectories.locate.mp hls, hp⟩

end Session

theorem node?_of_stage {t u : Tree} {mark : String} {target : Path} {contents : List UInt8}
    {answer : Except WriteError Staged} {location : Location}
    (h : (stage mark target contents : StateM Tree _).run t = (answer, u))
    (hl : t.locate (target.temporary mark) ≠ .ok location) :
    u.node? location = t.node? location := by
  rcases stage_cases mark target contents t with ⟨e, -, hs⟩ | ⟨place, hp, hs⟩
  · rw [hs] at h
    cases h
    rfl
  · rw [hs] at h
    cases h
    have hne : location ≠ place := fun he => hl (he ▸ hp.leads)
    exact node?_put_of_ne hne _

/-- Outside of the temporary files only what was there at the start and complete files are seen.
Staging touches the temporary file alone, a commit that fails takes it away, and a file that is
staged and discarded leaves no trace. The mark is the number of a process and so has no slash. -/
theorem only_whole_files {mark : String} {targets : List Path} {t : Tree} {session : Session}
    (hmark : '/' ∉ mark.toList) (hnormal : ∀ target ∈ targets, target.IsNormal)
    (habsent : ∀ target ∈ targets, t.Absent (target.temporary mark))
    (hapart : t.Apart mark targets) (h : Session.Reached mark targets t session) :
    SameDirectories t session.tree ∧
      (∀ location ∉ t.places (targets.map (Path.temporary mark)),
        session.tree.node? location = t.node? location ∨
          ∃ file ∈ session.staged, t.locate file.1 = .ok location ∧
            session.tree.node? location = some (.file file.2)) ∧
      (∀ target contents answer u,
        (stage mark target contents : StateM Tree _).run session.tree = (answer, u) →
          ∀ location, session.tree.locate (target.temporary mark) ≠ .ok location →
            u.node? location = session.tree.node? location) ∧
      (∀ s ∈ session.pending, ∀ e u,
        (s.commit : StateM Tree _).run session.tree = (.error e, u) →
          u.Absent s.temporary ∧
            ∀ location, session.tree.locate s.temporary ≠ .ok location →
              u.node? location = session.tree.node? location) ∧
      ∀ target ∈ targets, ¬session.Waits (target.temporary mark) →
        ∀ contents s u,
          (stage mark target contents : StateM Tree _).run session.tree = (.ok s, u) →
            (s.discard : StateM Tree _).run u = ((), session.tree) := by
  have hsound := Session.sound_of_reached hmark hnormal habsent hapart h
  refine ⟨hsound.sameDirectories, hsound.whole, fun target contents answer u hs location hl => ?_,
    fun s hs e u hc => ?_, fun target ht hw contents s u hs => ?_⟩
  · exact node?_of_stage hs hl
  · obtain ⟨target, ht, rfl⟩ := hsound.pending s hs
    have hu : u = session.tree.without (target.temporary mark) := by
      rcases (Staged.beside mark target).commit_cases session.tree with
        ⟨cause, -, hr⟩ | ⟨moved, -, hr⟩
      · rw [hr] at hc
        cases hc
        rfl
      · rw [hr] at hc
        cases hc
    subst hu
    have hnode := hsound.node?_without ht
    have hsame := sameDirectories_without (target.temporary mark) session.tree
    refine ⟨fun place hp => ?_, fun location hl => ?_⟩
    · exact (hnode place).trans
        (if_pos (hsound.sameDirectories.locate.mpr (hsame.locate.mpr hp)))
    · exact (hnode location).trans
        (if_neg fun hp => hl (hsound.sameDirectories.locate.mp hp))
  · have ha := hsound.absent ht hw
    rcases stage_cases mark target contents session.tree with ⟨e, -, hr⟩ | ⟨place, hp, hr⟩
    · rw [hr] at hs
      cases hs
    · rw [hr] at hs
      cases hs
      rw [Staged.run_discard]
      exact congrArg (Prod.mk ()) (without_put hp ha contents)

/-- A file that is staged twice comes into place as it was staged last. -/
theorem only_whole_files_restaged :
    let twice := (Session.start .empty).stage "7" "a" [1] |>.stage "7" "a" [2]
    let session := twice.commit (.beside "7" "a")
    Path.IsNormal "a" ∧ Tree.empty.Absent (Path.temporary "7" "a") ∧ Tree.empty.Apart "7" ["a"] ∧
      Session.Reached "7" ["a"] .empty session ∧
      session.tree.node? ["a"] = some (.file [2]) ∧
      ∃ file ∈ session.staged, Tree.empty.locate file.1 = .ok ["a"] ∧
        session.tree.node? ["a"] = some (.file file.2) := by
  intro twice session
  have hnormal : Path.IsNormal "a" := by decide +kernel
  have habsent : Tree.empty.Absent (Path.temporary "7" "a") := by decide +kernel
  have hapart : Tree.empty.Apart "7" ["a"] := by decide +kernel
  have hreached : Session.Reached "7" ["a"] .empty session :=
    ((Session.Reached.start.stage (by decide) [1]).stage (by decide) [2]).commit (by decide +kernel)
  have hnode : session.tree.node? ["a"] = some (.file [2]) := by decide +kernel
  have hwhole := (only_whole_files (by decide) (List.forall_mem_singleton.mpr hnormal)
    (List.forall_mem_singleton.mpr habsent) hapart hreached).2.1 ["a"] (by decide +kernel)
  refine ⟨hnormal, habsent, hapart, hreached, hnode, hwhole.resolve_left ?_⟩
  rw [hnode]
  decide

end RecordMachine.Files
