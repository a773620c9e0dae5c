import RecordMachine.Files.Staged
import RecordMachine.Proofs.Clearing
/-!
# Staged files in a tree

Staging and committing make and remove files only, so the trees along the way all have the same
directories, and a failure is told by the locations that it clears.
-/
namespace RecordMachine.Files

open RecordMachine.Files.Tree

variable {t u : Tree} {mark : String} {target : Path} {location : Location}

theorem run_bind_of_run {α β : Type} {x : StateM Tree α} {f : α → StateM Tree β} {a : α}
    (h : x.run t = (a, u)) : (x >>= f).run t = (f a).run u := by
  rw [StateT.run_bind, h]
  rfl

theorem run_remove (path : Path) (t : Tree) :
    ∃ answer, (FileSystem.remove path : StateM Tree _).run t = (answer, t.without path) := by
  show ∃ answer, Tree.update (·.remove path) t = (answer, t.without path)
  rw [Tree.update, Tree.without]
  cases t.remove path with
  | ok u => exact ⟨.ok (), rfl⟩
  | error e => exact ⟨.error e, rfl⟩

theorem run_update {change : Tree → Except FileError Tree} :
    (Tree.update change).run t =
      match change t with
      | .ok after => (.ok (), after)
      | .error e => (.error e, t) := rfl

/-! ## One file -/

namespace Staged

def beside (mark : String) (target : Path) : Staged := ⟨target.temporary mark, target⟩

theorem run_discard (s : Staged) (t : Tree) :
    (s.discard : StateM Tree Unit).run t = ((), t.without s.temporary) := by
  obtain ⟨answer, hr⟩ := run_remove s.temporary t
  rw [discard, run_bind_of_run hr]
  rfl

theorem run_commit (s : Staged) (t : Tree) :
    (s.commit : StateM Tree (Except WriteError Unit)).run t =
      match t.move s.temporary s.target with
      | .ok u => (.ok (), u)
      | .error cause =>
        (.error (.notMoved s.temporary s.target cause), t.without s.temporary) := by
  have hmove : (FileSystem.move s.temporary s.target : StateM Tree _).run t =
      (Tree.update (·.move s.temporary s.target)).run t := rfl
  obtain ⟨answer, hr⟩ := run_remove s.temporary t
  rw [run_update] at hmove
  cases hm : t.move s.temporary s.target with
  | ok u =>
    rw [hm] at hmove
    rw [commit, run_bind_of_run hmove]
    rfl
  | error cause =>
    rw [hm] at hmove
    rw [commit, run_bind_of_run hmove]
    exact run_bind_of_run hr

theorem commit_cases (s : Staged) (t : Tree) :
    (∃ cause, (∀ u, t.move s.temporary s.target ≠ .ok u) ∧
      (s.commit : StateM Tree _).run t =
        (.error (.notMoved s.temporary s.target cause), t.without s.temporary)) ∨
    ∃ u, t.move s.temporary s.target = .ok u ∧ (s.commit : StateM Tree _).run t = (.ok (), u) := by
  rw [run_commit]
  cases hm : t.move s.temporary s.target with
  | ok u => exact Or.inr ⟨u, rfl, rfl⟩
  | error cause => exact Or.inl ⟨cause, nofun, rfl⟩

end Staged

theorem run_stage_of_isDirectory (h : t.isDirectory target = true) (contents : List UInt8) :
    (stage mark target contents : StateM Tree _).run t =
      (.error (.targetIsDirectory target), t) := by
  have hd : (FileSystem.isDirectory target : StateM Tree _).run t = (true, t) :=
    congrArg (·, t) h
  rw [stage, run_bind_of_run hd]
  rfl

theorem run_stage (h : t.isDirectory target = false) (contents : List UInt8) :
    (stage mark target contents : StateM Tree _).run t =
      match t.create (target.temporary mark) contents with
      | .ok u => (.ok (Staged.beside mark target), u)
      | .error cause =>
        (.error (.notWritten target cause), t.without (target.temporary mark)) := by
  have hd : (FileSystem.isDirectory target : StateM Tree _).run t = (false, t) :=
    congrArg (·, t) h
  have hcreate : (FileSystem.create (target.temporary mark) contents : StateM Tree _).run t =
      (Tree.update (·.create (target.temporary mark) contents)).run t := rfl
  obtain ⟨answer, hr⟩ := run_remove (target.temporary mark) t
  rw [run_update] at hcreate
  rw [stage, run_bind_of_run hd]
  cases hc : t.create (target.temporary mark) contents with
  | ok u =>
    rw [hc] at hcreate
    exact run_bind_of_run hcreate
  | error cause =>
    rw [hc] at hcreate
    exact (run_bind_of_run hcreate).trans (run_bind_of_run hr)

/-- The target is no directory, and its temporary file may be made at the location. -/
structure Stageable (t : Tree) (mark : String) (target : Path) (location : Location) : Prop where
  target_free : t.isDirectory target = false
  leads : t.locate (target.temporary mark) = .ok location
  free : t.node? location ≠ some .directory

theorem stage_cases (mark : String) (target : Path) (contents : List UInt8) (t : Tree) :
    (∃ e, (∀ location, ¬Stageable t mark target location) ∧
      (stage mark target contents : StateM Tree _).run t = (.error e, t)) ∨
    ∃ location, Stageable t mark target location ∧
      (stage mark target contents : StateM Tree _).run t =
        (.ok (Staged.beside mark target), t.put location (.file contents)) := by
  cases hd : t.isDirectory target with
  | true =>
    refine Or.inl ⟨_, fun location hs => ?_, run_stage_of_isDirectory hd contents⟩
    rw [hs.target_free] at hd
    cases hd
  | false =>
    rw [run_stage hd]
    cases hc : t.create (target.temporary mark) contents with
    | ok u =>
      obtain ⟨location, hl, hn, rfl⟩ := create_eq_ok_iff.mp hc
      exact Or.inr ⟨location, ⟨hd, hl, hn⟩, rfl⟩
    | error cause =>
      have hnone : ∀ location, ¬Stageable t mark target location := by
        intro location hs
        rw [create_eq_ok_iff.mpr ⟨location, hs.leads, hs.free, rfl⟩] at hc
        cases hc
      -- what cannot be made cannot be removed either
      have hkept : t.without (target.temporary mark) = t := by
        unfold without
        split
        next u hu =>
          obtain ⟨location, old, hl, hn, -⟩ := remove_eq_ok_iff.mp hu
          exact absurd ⟨hd, hl, by simp [hn]⟩ (hnone location)
        next => rfl
      refine Or.inl ⟨.notWritten target cause, hnone, ?_⟩
      rw [hkept]

/-- A complete file can come into place at the location that the target leads to. -/
structure Receives (t : Tree) (mark : String) (target : Path) (location : Location) : Prop where
  named : ∃ name, target.EndsIn name
  leads : t.locate target = .ok location
  free : t.node? location ≠ some .directory
  temporary_leads : ∃ place, t.locate (target.temporary mark) = .ok place

theorem Receives.target_free (h : Receives t mark target location) :
    t.isDirectory target = false :=
  isDirectory_eq_false_of_locate h.leads h.free

theorem Receives.congr {other : Tree} (h : SameDirectories t other)
    (hr : Receives t mark target location) : Receives other mark target location where
  named := hr.named
  leads := h.locate.mp hr.leads
  free := fun hn => hr.free ((h location).mpr hn)
  temporary_leads := by
    obtain ⟨place, hp⟩ := hr.temporary_leads
    exact ⟨place, h.locate.mp hp⟩

theorem without_put {place : Location} (hp : Stageable t mark target place)
    (ha : t.Absent (target.temporary mark)) (contents : List UInt8) :
    (t.put place (.file contents)).without (target.temporary mark) = t := by
  rw [(sameDirectories_put hp.free contents).without hp.leads hp.free,
    clear_put_self (ha place hp.leads)]

/-- A staged file is moved into place exactly if its target can receive it. The temporary file goes
where there was nothing, so nothing else changes. -/
theorem move_staged_eq_ok_iff {place : Location} (hp : Stageable t mark target place)
    (ha : t.Absent (target.temporary mark)) {contents : List UInt8} :
    (t.put place (.file contents)).move (target.temporary mark) target = .ok u ↔
      ∃ location, Receives t mark target location ∧ u = t.put location (.file contents) := by
  have hsame := sameDirectories_put hp.free contents
  have hback : (t.put place (.file contents)).erase place = t := by
    rw [erase_eq_clear, clear_put_self (ha place hp.leads)]
  have hnode := node?_put_self (t := t) (ne_nil_of_node?_ne hp.free) (.file contents)
  rw [move_eq_ok_iff]
  constructor
  · intro h
    obtain ⟨-, hnamed, origin, location, found, ho, hl, hf, hfree, rfl⟩ := h
    obtain rfl := Except.ok.inj (hp.leads.symm.trans (hsame.locate.mpr ho))
    obtain rfl : contents = found := by simpa [hnode] using hf
    refine ⟨location, ⟨hnamed, hsame.locate.mpr hl, ?_, place, hp.leads⟩, by rw [hback]⟩
    intro hn
    exact hfree ((hsame location).mp hn)
  · intro h
    obtain ⟨location, hr, rfl⟩ := h
    refine ⟨Path.exists_endsIn_temporary mark target, hr.named, place, location, contents,
      hsame.locate.mp hp.leads, hsame.locate.mp hr.leads, hnode, ?_, by rw [hback]⟩
    intro hn
    exact hr.free ((hsame location).mpr hn)

theorem write_cases (ha : t.Absent (target.temporary mark)) (contents : List UInt8) :
    (∃ e, (∀ location, ¬Receives t mark target location) ∧
      (write mark target contents : StateM Tree _).run t = (.error e, t)) ∨
    ∃ location, Receives t mark target location ∧
      (write mark target contents : StateM Tree _).run t =
        (.ok (), t.put location (.file contents)) := by
  rcases stage_cases mark target contents t with ⟨e, hnone, hs⟩ | ⟨place, hp, hs⟩
  · rw [write, run_bind_of_run hs]
    refine Or.inl ⟨e, fun location hr => ?_, rfl⟩
    obtain ⟨place, hp⟩ := hr.temporary_leads
    exact hnone place ⟨hr.target_free, hp, by simp [ha place hp]⟩
  · rw [write, run_bind_of_run hs]
    let staged := t.put place (.file contents)
    have hback : staged.without (target.temporary mark) = t := without_put hp ha contents
    rcases (Staged.beside mark target).commit_cases staged with ⟨cause, hnone, hc⟩ | ⟨u, hm, hc⟩
    · refine Or.inl ⟨_, fun location hr => ?_, hc.trans (by rw [← hback]; rfl)⟩
      exact hnone _ ((move_staged_eq_ok_iff hp ha).mpr ⟨location, hr, rfl⟩)
    · obtain ⟨location, hr, rfl⟩ := (move_staged_eq_ok_iff hp ha).mp hm
      exact Or.inr ⟨location, hr, hc⟩

/-! ## Several files -/

theorem run_discardAll {staged : List Staged}
    (h : ∀ s ∈ staged, t.isDirectory s.temporary = false) :
    (discardAll staged : StateM Tree Unit).run t =
      ((), t.clear (t.places (staged.map Staged.temporary))) := by
  induction staged generalizing t with
  | nil =>
    show ((), t) = _
    rw [List.map_nil, places_nil, clear_nil]
  | cons s rest ih =>
    obtain ⟨hs, hrest⟩ := List.forall_mem_cons.mp h
    rw [discardAll, run_bind_of_run (s.run_discard t)]
    have hsame : SameDirectories t (t.without s.temporary) := sameDirectories_without s.temporary t
    rw [ih fun r hr => hsame.isDirectory (hrest r hr), ← hsame.places, without_eq_clear hs,
      clear_clear, List.map_cons, places_cons]

theorem run_stageAll_cons (mark : String) (file : Path × List UInt8)
    (rest : List (Path × List UInt8)) (t : Tree) :
    (stageAll mark (file :: rest) : StateM Tree _).run t =
      match (stage mark file.1 file.2 : StateM Tree _).run t with
      | (.error e, u) => (.error e, u)
      | (.ok s, u) =>
        match (stageAll mark rest : StateM Tree _).run u with
        | (.ok more, after) => (.ok (s :: more), after)
        | (.error e, after) => (.error e, after.without s.temporary) := by
  cases hs : (stage mark file.1 file.2 : StateM Tree _).run t with
  | mk answer u =>
    rw [stageAll, run_bind_of_run hs]
    cases answer with
    | error e => rfl
    | ok s =>
      dsimp only
      cases hr : (stageAll mark rest : StateM Tree _).run u with
      | mk answer after =>
        rw [run_bind_of_run hr]
        cases answer with
        | ok more => rfl
        | error e => exact run_bind_of_run (s.run_discard after)

theorem run_commitAll_cons (s : Staged) (rest : List Staged) (t : Tree) :
    (commitAll (s :: rest) : StateM Tree _).run t =
      match (s.commit : StateM Tree _).run t with
      | (.error e, u) => (.error e, ((discardAll rest : StateM Tree Unit).run u).2)
      | (.ok (), u) =>
        match (commitAll rest : StateM Tree _).run u with
        | (.ok (), after) => (.ok (), after)
        | (.error e, after) => (.error e, after.without s.target) := by
  cases hc : (s.commit : StateM Tree _).run t with
  | mk answer u =>
    rw [commitAll, run_bind_of_run hc]
    cases answer with
    | error e => rfl
    | ok _ =>
      dsimp only
      cases hr : (commitAll rest : StateM Tree _).run u with
      | mk answer after =>
        rw [run_bind_of_run hr]
        cases answer with
        | ok _ => rfl
        | error e =>
          obtain ⟨answer, hr⟩ := run_remove s.target after
          exact run_bind_of_run hr

theorem stageAll_error {files : List (Path × List UInt8)} {e : WriteError}
    (h : (stageAll mark files : StateM Tree _).run t = (.error e, u)) :
    ∃ locations, (∀ location ∈ locations, t.node? location ≠ some .directory ∧
      location ∈ t.places (files.map fun file => file.1.temporary mark)) ∧
      u = t.clear locations := by
  induction files generalizing t u e with
  | nil => cases h
  | cons file rest ih =>
    rw [run_stageAll_cons] at h
    rcases stage_cases mark file.1 file.2 t with ⟨e', -, hs⟩ | ⟨place, hp, hs⟩
    · rw [hs] at h
      cases h
      exact ⟨[], nofun, (clear_nil t).symm⟩
    · have hsame := sameDirectories_put hp.free file.2
      cases hr : (stageAll mark rest : StateM Tree _).run (t.put place (.file file.2)) with
      | mk answer staged =>
        simp only [hs, hr] at h
        cases answer with
        | ok more => cases h
        | error e' =>
          obtain ⟨locations, hl, rfl⟩ := ih hr
          cases h
          -- a later file may share this temporary file, which is then among the locations already
          have hcleared := hsame.trans (sameDirectories_clear fun other hm => (hl other hm).1)
          refine ⟨locations ++ [place], fun other hm => ?_, ?_⟩
          · rw [List.map_cons, places_cons, hsame.places, List.mem_append]
            rcases List.mem_append.mp hm with hm | hm
            · obtain ⟨hn, hm⟩ := hl other hm
              exact ⟨fun hd => hn ((hsame other).mp hd), Or.inr hm⟩
            · rw [List.mem_singleton.mp hm]
              exact ⟨hp.free, Or.inl (mem_toList_place?_iff.mpr hp.leads)⟩
          · show ((t.put place _).clear locations).without (file.1.temporary mark) = _
            rw [hcleared.without hp.leads hp.free, clear_clear, clear_put (by simp)]

theorem stageAll_ok {files : List (Path × List UInt8)} {staged : List Staged}
    (h : (stageAll mark files : StateM Tree _).run t = (.ok staged, u)) :
    staged = files.map (fun file => Staged.beside mark file.1) ∧ SameDirectories t u ∧
      (∀ s ∈ staged, t.isDirectory s.temporary = false) ∧
      ∀ locations, t.places (staged.map Staged.temporary) ⊆ locations →
        u.clear locations = t.clear locations := by
  induction files generalizing t u staged with
  | nil =>
    cases h
    exact ⟨rfl, SameDirectories.refl t, nofun, fun _ _ => rfl⟩
  | cons file rest ih =>
    rw [run_stageAll_cons] at h
    rcases stage_cases mark file.1 file.2 t with ⟨e', -, hs⟩ | ⟨place, hp, hs⟩
    · rw [hs] at h
      cases h
    · have hsame := sameDirectories_put hp.free file.2
      cases hr : (stageAll mark rest : StateM Tree _).run (t.put place (.file file.2)) with
      | mk answer after =>
        simp only [hs, hr] at h
        cases answer with
        | error e => cases h
        | ok more =>
          cases h
          obtain ⟨rfl, hu, hd, hclear⟩ := ih hr
          have hfree := isDirectory_eq_false_of_locate hp.leads hp.free
          refine ⟨rfl, hsame.trans hu, List.forall_mem_cons.mpr ⟨hfree, fun s hm => ?_⟩, ?_⟩
          · exact hsame.symm.isDirectory (hd s hm)
          · intro locations hl
            rw [List.map_cons, places_cons, List.append_subset, hsame.places] at hl
            rw [hclear locations hl.2, clear_put (hl.1 (mem_toList_place?_iff.mpr hp.leads))]

/-- If a commit fails, the staged files are gone, and so is what stands at the targets of the
commits before it. -/
theorem commitAll_error {staged : List Staged} {e : WriteError}
    (hd : ∀ s ∈ staged, t.isDirectory s.temporary = false)
    (h : (commitAll staged : StateM Tree _).run t = (.error e, u)) :
    ∃ done s left cause, staged = done ++ s :: left ∧
      e = .notMoved s.temporary s.target cause ∧
      (∀ d ∈ done, t.isDirectory d.target = false ∧
        ∃ location, t.locate d.target = .ok location) ∧
      u = t.clear (t.places (staged.map Staged.temporary) ++
        t.places (done.map Staged.target)) := by
  induction staged generalizing t u e with
  | nil => cases h
  | cons s rest ih =>
    obtain ⟨hs, hrest⟩ := List.forall_mem_cons.mp hd
    rw [run_commitAll_cons] at h
    rcases s.commit_cases t with ⟨cause, -, hc⟩ | ⟨moved, hm, hc⟩
    · have hsame := sameDirectories_without s.temporary t
      simp only [hc, run_discardAll fun r hr => hsame.isDirectory (hrest r hr)] at h
      cases h
      refine ⟨[], s, rest, cause, rfl, rfl, nofun, ?_⟩
      rw [← hsame.places, without_eq_clear hs, clear_clear, List.map_cons, places_cons, List.map_nil,
        places_nil, List.append_nil]
    · have hsame := sameDirectories_move hm
      have hrest' : ∀ r ∈ rest, moved.isDirectory r.temporary = false :=
        fun r hr => hsame.isDirectory (hrest r hr)
      cases hr : (commitAll rest : StateM Tree _).run moved with
      | mk answer after =>
        simp only [hc, hr] at h
        cases answer with
        | ok _ => cases h
        | error e' =>
          cases h
          obtain ⟨done, r, left, cause, hsplit, rfl, hdone, rfl⟩ := ih hrest' hr
          have hd : ∀ location ∈ moved.places (rest.map Staged.temporary) ++
              moved.places (done.map Staged.target), moved.node? location ≠ some .directory := by
            intro location hl
            rcases List.mem_append.mp hl with hl | hl
            · exact node?_ne_directory_of_mem_places (by simpa using hrest') hl
            · exact node?_ne_directory_of_mem_places (by simpa using fun d hd => (hdone d hd).1) hl
          -- this file is taken back last, after all that came behind it
          refine ⟨s :: done, r, left, cause, by rw [hsplit]; rfl, rfl,
            List.forall_mem_cons.mpr ⟨?_, fun d hm => ?_⟩, ?_⟩
          · obtain ⟨-, -, -, location, -, -, hl, -, hfree, -⟩ := move_eq_ok_iff.mp hm
            exact ⟨isDirectory_eq_false_of_locate hl hfree, location, hl⟩
          · obtain ⟨hd, other, ho⟩ := hdone d hm
            exact ⟨hsame.symm.isDirectory hd, other, hsame.locate.mpr ho⟩
          · show Tree.without (Tree.clear moved _) s.target = _
            rw [without_clear_of_move hm hd, ← hsame.places, ← hsame.places]
            refine clear_congr (fun other => ?_) t
            simp [places_cons, places_nil, or_left_comm]

/-- Writing several files fails without a trace, unless files had come into place before one could
not be moved: then these are gone, and with them whatever stood in their place. -/
theorem writeAll_error {files : List (Path × List UInt8)} {e : WriteError}
    (ha : ∀ file ∈ files, t.Absent (file.1.temporary mark))
    (h : (writeAll mark files : StateM Tree _).run t = (.error e, u)) :
    u = t ∨ ∃ done file left cause, files = done ++ file :: left ∧
      e = .notMoved (file.1.temporary mark) file.1 cause ∧
      (∀ d ∈ done, t.isDirectory d.1 = false ∧ ∃ location, t.locate d.1 = .ok location) ∧
      u = t.clear (t.places (done.map Prod.fst)) := by
  have hnone : ∀ location ∈ t.places (files.map fun file => file.1.temporary mark),
      t.node? location = none := by
    intro location hm
    obtain ⟨path, hp, hl⟩ := mem_places_iff.mp hm
    obtain ⟨file, hf, rfl⟩ := List.mem_map.mp hp
    exact ha file hf location hl
  cases hs : (stageAll mark files : StateM Tree _).run t with
  | mk answer staged =>
    rw [writeAll, run_bind_of_run hs] at h
    cases answer with
    | error e' =>
      cases h
      obtain ⟨locations, hl, rfl⟩ := stageAll_error hs
      exact Or.inl (clear_eq_self fun location hm => hnone location (hl location hm).2)
    | ok waiting =>
      obtain ⟨rfl, hsame, hd, hclear⟩ := stageAll_ok hs
      have htemporaries : (files.map fun file => Staged.beside mark file.1).map Staged.temporary =
          files.map fun file => file.1.temporary mark := by
        rw [List.map_map]
        rfl
      obtain ⟨done, s, left, cause, hsplit, he, hdone, hu⟩ :=
        commitAll_error (fun s hm => hsame.isDirectory (hd s hm)) h
      obtain ⟨before, rest, rfl, rfl, hrest⟩ := List.map_eq_append_iff.mp hsplit
      obtain ⟨file, after, rfl, rfl, -⟩ := List.map_eq_cons_iff.mp hrest
      refine Or.inr ⟨before, file, after, cause, rfl, he, fun d hm => ?_, ?_⟩
      · obtain ⟨hd, location, hl⟩ := hdone _ (List.mem_map_of_mem hm)
        exact ⟨hsame.symm.isDirectory hd, location, hsame.locate.mpr hl⟩
      · rw [hu, ← hsame.places, ← hsame.places, hclear _ (List.subset_append_left _ _),
          ← clear_clear, htemporaries, clear_eq_self hnone, List.map_map]
        rfl

end RecordMachine.Files
