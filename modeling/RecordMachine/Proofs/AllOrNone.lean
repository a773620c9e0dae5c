import Mathlib.Control.Monad.Basic
import RecordMachine.Proofs.Siblings
import RecordMachine.Proofs.Staging
/-!
# Several files at once

Several files are written together if every target can receive its file and no two of them share a
temporary file. Then each target holds its contents, and else no new file stays in place.
-/
namespace RecordMachine.Files

open Files.Tree

variable {t u : Tree} {mark : String} {targets : List Path} {files : List (Path × List UInt8)}

/-! ## Staging -/

theorem Stageable.congr {target : Path} {place : Location} (h : SameDirectories t u)
    (hs : Stageable t mark target place) : Stageable u mark target place where
  target_free := h.isDirectory hs.target_free
  leads := h.locate.mp hs.leads
  free := fun hn => hs.free ((h place).mpr hn)

theorem exists_stageAll (h : ∀ file ∈ files, ∃ place, Stageable t mark file.1 place) :
    ∃ staged u, (stageAll mark files : StateM Tree _).run t = (.ok staged, u) := by
  induction files generalizing t with
  | nil => exact ⟨[], t, rfl⟩
  | cons file rest ih =>
    obtain ⟨⟨place, hp⟩, hrest⟩ := List.forall_mem_cons.mp h
    rw [run_stageAll_cons]
    rcases stage_cases mark file.1 file.2 t with ⟨e, hnone, hs⟩ | ⟨found, hfound, hs⟩
    · exact absurd hp (hnone place)
    · have hsame := sameDirectories_put hfound.free file.2
      obtain ⟨staged, after, hr⟩ := ih fun r hm => (hrest r hm).imp fun _ hr => hr.congr hsame
      simp only [hs, hr]
      exact ⟨_, _, rfl⟩

theorem node?_of_stageAll {staged : List Staged} {location : Location}
    (h : (stageAll mark files : StateM Tree _).run t = (.ok staged, u))
    (hl : location ∉ t.places ((files.map Prod.fst).map (Path.temporary mark))) :
    u.node? location = t.node? location := by
  obtain ⟨rfl, -, -, hclear⟩ := stageAll_ok h
  refine node?_congr_of_clear (hclear _ (fun other hm => ?_)) hl
  simpa [List.map_map, Function.comp_def, Staged.beside] using hm

theorem waits_of_stageAll {staged : List Staged}
    (h : (stageAll mark files : StateM Tree _).run t = (.ok staged, u))
    (hd : (t.places ((files.map Prod.fst).map (Path.temporary mark))).Nodup) :
    ∀ file ∈ files, ∀ place, t.locate (file.1.temporary mark) = .ok place →
      u.node? place = some (.file file.2) := by
  induction files generalizing t staged with
  | nil => simp
  | cons file rest ih =>
    rw [run_stageAll_cons] at h
    rcases stage_cases mark file.1 file.2 t with ⟨e, -, hs⟩ | ⟨place, hp, hs⟩
    · rw [hs] at h
      cases h
    · have hsame := sameDirectories_put hp.free file.2
      rw [List.map_cons, List.map_cons, places_cons_of_locate hp.leads, List.nodup_cons,
        hsame.places] at hd
      obtain ⟨hplace, hd⟩ := hd
      cases hr : (stageAll mark rest : StateM Tree _).run (t.put place (.file file.2)) with
      | mk answer after =>
        simp only [hs, hr] at h
        cases answer with
        | error e => cases h
        | ok more =>
          cases h
          refine List.forall_mem_cons.mpr ⟨fun found hfound => ?_, fun r hm found hfound => ?_⟩
          · obtain rfl := Except.ok.inj (hp.leads.symm.trans hfound)
            rw [node?_of_stageAll hr hplace, node?_put_self (ne_nil_of_node?_ne hp.free)]
          · exact ih hr hd r hm found (hsame.locate.mp hfound)

/-! ## Committing -/

theorem Tree.Apart.congr (h : SameDirectories t u) (ha : t.Apart mark targets) :
    u.Apart mark targets := by
  rw [Tree.Apart, ← h.places, ← h.places]
  exact ha

theorem Tree.Apart.of_cons {target : Path} (ha : t.Apart mark (target :: targets)) :
    t.Apart mark targets := by
  intro location hl hm
  refine ha location ?_ ?_
  · rw [places_cons]
    exact List.mem_append_right _ hl
  · rw [List.map_cons, places_cons]
    exact List.mem_append_right _ hm

/-- What the commits of the targets' staged files leave when all of them succeed. -/
structure Landed (t u : Tree) (mark : String) (targets : List Path) : Prop where
  sameDirectories : SameDirectories t u
  distinct : (t.places (targets.map (Path.temporary mark))).Nodup
  lands : ∀ target ∈ targets, ∃ place location contents,
    t.locate (target.temporary mark) = .ok place ∧ t.node? place = some (.file contents) ∧
      Receives t mark target location ∧ u.node? location = some (.file contents)
  cleared : ∀ place ∈ t.places (targets.map (Path.temporary mark)), u.node? place = none
  kept : ∀ location ∉ t.places (targets.map (Path.temporary mark)),
    location ∉ t.places targets → u.node? location = t.node? location

theorem landed_nil (t : Tree) (mark : String) : Landed t t mark [] where
  sameDirectories := SameDirectories.refl t
  distinct := by simp [places_nil]
  lands := by simp
  cleared := by simp [places_nil]
  kept := fun _ _ _ => rfl

theorem Landed.notMem_temporaries (h : Landed t u mark targets) {place : Location}
    (hn : t.node? place = none) : place ∉ t.places (targets.map (Path.temporary mark)) := by
  intro hm
  obtain ⟨target, ht, hp⟩ := mem_temporaries_iff.mp hm
  obtain ⟨found, _, _, hfound, hfile, -, -⟩ := h.lands target ht
  obtain rfl := Except.ok.inj (hp.symm.trans hfound)
  simp [hn] at hfile

theorem Landed.notMem_places (h : Landed t u mark targets) {target : Path} {name : String}
    {place location : Location} (he : target.EndsIn name) (hl : t.locate target = .ok location)
    (hp : t.locate (target.temporary mark) = .ok place) (hn : t.node? place = none) :
    location ∉ t.places targets := by
  intro hm
  obtain ⟨other, ho, hlo⟩ := mem_places_iff.mp hm
  obtain ⟨found, _, _, hfound, -, hreceives, -⟩ := h.lands other ho
  obtain ⟨name', he'⟩ := hreceives.named
  obtain rfl := temporary_unique he he' hl hlo hp hfound
  exact h.notMem_temporaries hn (mem_temporaries_iff.mpr ⟨other, ho, hfound⟩)

theorem landed_cons {target : Path} {moved : Tree} (ha : t.Apart mark (target :: targets))
    (hm : t.move (target.temporary mark) target = .ok moved) (h : Landed moved u mark targets) :
    Landed t u mark (target :: targets) := by
  have hsame := sameDirectories_move hm
  obtain ⟨-, ⟨name, hnamed⟩, origin, location, contents, ho, hl, hn, hfree, rfl⟩ :=
    move_eq_ok_iff.mp hm
  have hself : target ∈ target :: targets := List.mem_cons_self
  have hrest : ∀ r ∈ targets, r ∈ target :: targets := fun r hr => List.mem_cons_of_mem _ hr
  have horigin : ((t.erase origin).put location (.file contents)).node? origin = none := by
    rw [node?_put_of_ne (ha.ne hself hself hl ho).symm,
      node?_erase_self (ne_nil_of_node?_ne (t := t) (by simp [hn]))]
  -- the file that was moved has nothing to do with those that are moved after it
  have hothers : origin ∉ t.places (targets.map (Path.temporary mark)) :=
    hsame.places _ ▸ h.notMem_temporaries horigin
  have htargets : location ∉ t.places targets :=
    hsame.places _ ▸ h.notMem_places hnamed (hsame.locate.mp hl) (hsame.locate.mp ho) horigin
  have hfrom : origin ∉ t.places targets := by
    intro hm
    obtain ⟨r, hr, hlr⟩ := mem_places_iff.mp hm
    exact ha.ne (hrest r hr) hself hlr ho rfl
  have hto : location ∉ t.places (targets.map (Path.temporary mark)) := by
    intro hm
    obtain ⟨r, hr, hp⟩ := mem_temporaries_iff.mp hm
    exact ha.ne hself (hrest r hr) hl hp rfl
  have hkept : ∀ other ∉ t.places (targets.map (Path.temporary mark)),
      other ∉ t.places targets →
        u.node? other = ((t.erase origin).put location (.file contents)).node? other :=
    fun other hp ht => h.kept other (hsame.places _ ▸ hp) (hsame.places _ ▸ ht)
  refine ⟨hsame.trans h.sameDirectories, ?_, List.forall_mem_cons.mpr ⟨?_, fun r hr => ?_⟩, ?_, ?_⟩
  · rw [List.map_cons, places_cons_of_locate ho]
    exact List.nodup_cons.mpr ⟨hothers, hsame.places _ ▸ h.distinct⟩
  · exact ⟨origin, location, contents, ho, hn, ⟨⟨name, hnamed⟩, hl, hfree, origin, ho⟩,
      (hkept location hto htargets).trans (node?_put_self (ne_nil_of_node?_ne hfree) _)⟩
  · obtain ⟨place, other, found, hp, hfile, hreceives, hother⟩ := h.lands r hr
    have hpr := hsame.locate.mpr hp
    have hm := mem_temporaries_iff.mpr ⟨r, hr, hpr⟩
    have hpo : place ≠ origin := fun he => hothers (he ▸ hm)
    have hpl : place ≠ location := fun he => hto (he ▸ hm)
    exact ⟨place, other, found, hpr, (node?_moved hpo hpl).symm.trans hfile,
      hreceives.congr hsame.symm, hother⟩
  · intro place hm
    rw [List.map_cons, places_cons_of_locate ho] at hm
    rcases List.mem_cons.mp hm with rfl | hm
    · rw [hkept place hothers hfrom, horigin]
    · exact h.cleared place (hsame.places _ ▸ hm)
  · intro other htemporary hplace
    rw [List.map_cons, places_cons_of_locate ho, List.mem_cons, not_or] at htemporary
    rw [places_cons_of_locate hl, List.mem_cons, not_or] at hplace
    rw [hkept other htemporary.2 hplace.2, node?_moved htemporary.1 hplace.1]

theorem landed_of_commitAll (ha : t.Apart mark targets)
    (h : (commitAll (targets.map (Staged.beside mark)) : StateM Tree _).run t = (.ok (), u)) :
    Landed t u mark targets := by
  induction targets generalizing t with
  | nil =>
    cases h
    exact landed_nil _ mark
  | cons target rest ih =>
    rw [List.map_cons, run_commitAll_cons] at h
    rcases (Staged.beside mark target).commit_cases t with ⟨cause, -, hc⟩ | ⟨moved, hm, hc⟩
    · rw [hc] at h
      cases h
    · have hrest : moved.Apart mark rest := ha.of_cons.congr (sameDirectories_move hm)
      cases hr : (commitAll (rest.map (Staged.beside mark)) : StateM Tree _).run moved with
      | mk answer after =>
        simp only [hc, hr] at h
        cases answer with
        | error e => cases h
        | ok _ =>
          cases h
          exact landed_cons ha hm (ih hrest hr)

theorem exists_commitAll (ha : t.Apart mark targets)
    (hr : ∀ target ∈ targets, ∃ location, Receives t mark target location)
    (hd : (t.places (targets.map (Path.temporary mark))).Nodup)
    (hw : ∀ target ∈ targets, ∀ place, t.locate (target.temporary mark) = .ok place →
      ∃ contents, t.node? place = some (.file contents)) :
    ∃ u, (commitAll (targets.map (Staged.beside mark)) : StateM Tree _).run t = (.ok (), u) := by
  induction targets generalizing t with
  | nil => exact ⟨t, rfl⟩
  | cons target rest ih =>
    obtain ⟨⟨location, hreceives⟩, hrest⟩ := List.forall_mem_cons.mp hr
    obtain ⟨hself, hwait⟩ := List.forall_mem_cons.mp hw
    obtain ⟨origin, ho⟩ := hreceives.temporary_leads
    obtain ⟨contents, hn⟩ := hself origin ho
    have hl := hreceives.leads
    have hm : t.move (target.temporary mark) target =
        .ok ((t.erase origin).put location (.file contents)) :=
      move_eq_ok_iff.mpr ⟨Path.exists_endsIn_temporary mark target, hreceives.named, origin,
        location, contents, ho, hl, hn, hreceives.free, rfl⟩
    have hsame := sameDirectories_move hm
    rw [List.map_cons, places_cons_of_locate ho, List.nodup_cons] at hd
    obtain ⟨horigin, hd⟩ := hd
    -- the move neither takes nor replaces a file that still waits
    have hwaits : ∀ r ∈ rest, ∀ place,
        ((t.erase origin).put location (.file contents)).locate (r.temporary mark) = .ok place →
        ∃ found, ((t.erase origin).put location (.file contents)).node? place =
          some (.file found) := by
      intro r hm place hp
      have hpr := hsame.locate.mpr hp
      obtain ⟨found, hfound⟩ := hwait r hm place hpr
      refine ⟨found, (node?_moved ?_ ?_).trans hfound⟩
      · intro he
        exact horigin (mem_temporaries_iff.mpr ⟨r, hm, he ▸ hpr⟩)
      · exact (ha.ne List.mem_cons_self (List.mem_cons_of_mem _ hm) hl hpr).symm
    obtain ⟨u, hu⟩ := ih (ha.of_cons.congr hsame)
      (fun r hm => (hrest r hm).imp fun _ hr => hr.congr hsame) (hsame.places _ ▸ hd) hwaits
    rw [List.map_cons, run_commitAll_cons]
    rcases (Staged.beside mark target).commit_cases t with ⟨cause, hnone, -⟩ | ⟨moved, hm', hc⟩
    · exact absurd hm (hnone _)
    · obtain rfl := Except.ok.inj (hm.symm.trans hm')
      simp only [hc, hu]
      exact ⟨_, rfl⟩

/-! ## Writing -/

theorem map_beside_eq (mark : String) (files : List (Path × List UInt8)) :
    files.map (fun file => Staged.beside mark file.1) =
      (files.map Prod.fst).map (Staged.beside mark) := by
  rw [List.map_map]
  rfl

theorem exists_writeAll (ha : ∀ file ∈ files, t.Absent (file.1.temporary mark))
    (hapart : t.Apart mark (files.map Prod.fst))
    (hr : ∀ file ∈ files, ∃ location, Receives t mark file.1 location)
    (hd : (t.places ((files.map Prod.fst).map (Path.temporary mark))).Nodup) :
    ∃ u, (writeAll mark files : StateM Tree _).run t = (.ok (), u) := by
  have hstageable : ∀ file ∈ files, ∃ place, Stageable t mark file.1 place := by
    intro file hm
    obtain ⟨location, hreceives⟩ := hr file hm
    obtain ⟨place, hp⟩ := hreceives.temporary_leads
    exact ⟨place, hreceives.target_free, hp, by simp [ha file hm place hp]⟩
  obtain ⟨staged, waiting, hs⟩ := exists_stageAll hstageable
  obtain ⟨rfl, hsame, -, -⟩ := stageAll_ok hs
  have hreceives : ∀ target ∈ files.map Prod.fst,
      ∃ location, Receives waiting mark target location := by
    simp only [List.forall_mem_map]
    exact fun file hm => (hr file hm).imp fun _ h => h.congr hsame
  have hwaits : ∀ target ∈ files.map Prod.fst, ∀ place,
      waiting.locate (target.temporary mark) = .ok place →
        ∃ contents, waiting.node? place = some (.file contents) := by
    simp only [List.forall_mem_map]
    exact fun file hm place hp =>
      ⟨file.2, waits_of_stageAll hs hd file hm place (hsame.locate.mpr hp)⟩
  obtain ⟨u, hc⟩ :=
    exists_commitAll (hapart.congr hsame) hreceives (hsame.places _ ▸ hd) hwaits
  rw [writeAll, run_bind_of_run hs, map_beside_eq]
  exact ⟨u, hc⟩

theorem landed_of_writeAll (ha : ∀ file ∈ files, t.Absent (file.1.temporary mark))
    (hapart : t.Apart mark (files.map Prod.fst))
    (h : (writeAll mark files : StateM Tree _).run t = (.ok (), u)) :
    SameDirectories t u ∧
      (t.places ((files.map Prod.fst).map (Path.temporary mark))).Nodup ∧
      (∀ file ∈ files, ∃ location, Receives t mark file.1 location ∧
        u.node? location = some (.file file.2)) ∧
      (∀ file ∈ files, u.Absent (file.1.temporary mark)) ∧
      ∀ location ∉ t.places (files.map Prod.fst), u.node? location = t.node? location := by
  cases hs : (stageAll mark files : StateM Tree _).run t with
  | mk answer waiting =>
    rw [writeAll, run_bind_of_run hs] at h
    cases answer with
    | error e => cases h
    | ok staged =>
      obtain ⟨rfl, hsame, -, -⟩ := stageAll_ok hs
      rw [map_beside_eq] at h
      have hland := landed_of_commitAll (hapart.congr hsame) h
      have hdistinct := hsame.places _ ▸ hland.distinct
      have hcleared := hsame.places _ ▸ hland.cleared
      refine ⟨hsame.trans hland.sameDirectories, hdistinct, fun file hm => ?_,
        fun file hm place hp => ?_, fun location hl => ?_⟩
      · obtain ⟨place, location, contents, hp, hn, hreceives, hu⟩ :=
          hland.lands file.1 (List.mem_map_of_mem hm)
        have hwaits := waits_of_stageAll hs hdistinct file hm place (hsame.locate.mpr hp)
        obtain rfl : contents = file.2 := by simpa [hn] using hwaits
        exact ⟨location, hreceives.congr hsame.symm, hu⟩
      · have hl := (hsame.trans hland.sameDirectories).locate.mpr hp
        exact hcleared place (mem_temporaries_iff.mpr ⟨file.1, List.mem_map_of_mem hm, hl⟩)
      · by_cases hm : location ∈ t.places ((files.map Prod.fst).map (Path.temporary mark))
        · obtain ⟨target, ht, hlocate⟩ := mem_temporaries_iff.mp hm
          obtain ⟨file, hf, rfl⟩ := List.mem_map.mp ht
          rw [hcleared location hm, ha file hf location hlocate]
        · rw [hland.kept location (hsame.places _ ▸ hm) (hsame.places _ ▸ hl),
            node?_of_stageAll hs hm]

theorem cleared_of_writeAll (ha : ∀ file ∈ files, t.Absent (file.1.temporary mark))
    {e : WriteError} (h : (writeAll mark files : StateM Tree _).run t = (.error e, u)) :
    ∃ locations ⊆ t.places (files.map Prod.fst),
      (∀ location ∈ locations, t.node? location ≠ some .directory) ∧ u = t.clear locations := by
  rcases writeAll_error ha h with rfl | ⟨done, file, left, cause, rfl, -, hd, rfl⟩
  · exact ⟨[], List.nil_subset _, nofun, (clear_nil u).symm⟩
  · refine ⟨_, fun location hm => ?_, fun location hm => ?_, rfl⟩
    · rw [List.map_append, places, List.filterMap_append]
      exact List.mem_append_left _ hm
    · refine node?_ne_directory_of_mem_places (fun path hp => ?_) hm
      obtain ⟨written, hw, rfl⟩ := List.mem_map.mp hp
      exact (hd written hw).1

/-- Either every target holds its contents afterwards, or none of them anything new. No temporary
file is left, and all other places are as they were. -/
theorem writeAll_all_or_none {answer : Except WriteError Unit}
    (habsent : ∀ file ∈ files, t.Absent (file.1.temporary mark))
    (hapart : t.Apart mark (files.map Prod.fst))
    (h : (writeAll mark files : StateM Tree _).run t = (answer, u)) :
    (answer = .ok () ↔ (∀ file ∈ files, ∃ location, Receives t mark file.1 location) ∧
        (t.places ((files.map Prod.fst).map (Path.temporary mark))).Nodup) ∧
      (answer = .ok () → ∀ file ∈ files, u.read file.1 = .ok file.2) ∧
      (answer ≠ .ok () → ∀ location ∈ t.places (files.map Prod.fst),
        u.node? location = t.node? location ∨ u.node? location = none) ∧
      (∀ file ∈ files, u.Absent (file.1.temporary mark)) ∧
      SameDirectories t u ∧
      ∀ location ∉ t.places (files.map Prod.fst), u.node? location = t.node? location := by
  cases answer with
  | ok _ =>
    obtain ⟨hsame, hdistinct, hlands, hcleared, hkept⟩ := landed_of_writeAll habsent hapart h
    refine ⟨?_, fun _ file hm => ?_, nofun, hcleared, hsame, hkept⟩
    · exact iff_of_true rfl ⟨fun file hm => (hlands file hm).imp fun _ hr => hr.1, hdistinct⟩
    · obtain ⟨location, hreceives, hn⟩ := hlands file hm
      exact read_eq_ok_iff.mpr ⟨location, hsame.locate.mp hreceives.leads, hn⟩
  | error e =>
    obtain ⟨locations, hsub, hfree, rfl⟩ := cleared_of_writeAll habsent h
    refine ⟨iff_of_false nofun fun hr => ?_, nofun, fun _ location _ => ?_,
      fun file hm => (habsent file hm).clear hfree, sameDirectories_clear hfree,
      fun location hm => node?_clear_of_notMem fun hl => hm (hsub hl)⟩
    · obtain ⟨after, ho⟩ := exists_writeAll habsent hapart hr.1 hr.2
      rw [ho] at h
      cases h
    · exact node?_clear_eq_or t locations location

theorem writeAll_two_files :
    let files : List (Path × List UInt8) := [("d/old", [1]), ("new", [2])]
    let old : Tree := ⟨[(["d"], .directory), (["old", "d"], .file [9])]⟩
    let new : Tree := ⟨[(["new"], .file [2]), (["old", "d"], .file [1]), (["d"], .directory)]⟩
    (∀ file ∈ files, old.Absent (file.1.temporary "7")) ∧
      old.Apart "7" (files.map Prod.fst) ∧
      (writeAll "7" files : StateM Tree _).run old = (.ok (), new) ∧
      ∀ file ∈ files, new.read file.1 = .ok file.2 := by
  intro files old new
  have habsent : ∀ file ∈ files, old.Absent (file.1.temporary "7") := by decide +kernel
  have hapart : old.Apart "7" (files.map Prod.fst) := by decide +kernel
  have hrun : (writeAll "7" files : StateM Tree _).run old = (.ok (), new) := by
    show @Eq (Except WriteError Unit × Tree) _ _
    decide +kernel
  exact ⟨habsent, hapart, hrun, (writeAll_all_or_none habsent hapart hrun).2.1 rfl⟩

end RecordMachine.Files
