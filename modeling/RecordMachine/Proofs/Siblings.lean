import RecordMachine.Proofs.Clearing
import RecordMachine.Proofs.Parts
/-!
# Names beside a file

The temporary file of a target stands in the directory of the target, so paths that lead to the
same target share it. Under a mark without slashes normal paths share it only then.
-/
namespace RecordMachine.Files

open Parts

namespace Path

variable {path : Path} {above : List String} {mark name : String}

def temporaryName (mark name : String) : String := s!".{name}.{mark}.tmp"

theorem notMem_of_mem_parts {part : String} (h : part ∈ path.parts) : '/' ∉ part.toList := by
  obtain ⟨cs, hcs, rfl⟩ := List.mem_map.mp h
  rw [String.toList_ofList]
  exact notMem_of_mem_splitOn (Or.inl rfl) hcs

theorem parts_ne_nil (path : Path) : path.parts ≠ [] := by
  simp [parts, List.splitOn, List.splitOnP_ne_nil]

theorem parts_ofParts_append_singleton (h : ∀ part ∈ above, '/' ∉ part.toList) (last : String) :
    (ofParts (above ++ [last])).parts = above ++ parts last := by
  induction above with
  | nil => simp [ofParts, String.intercalate_singleton]
  | cons part above ih =>
    obtain ⟨hpart, habove⟩ := List.forall_mem_cons.mp h
    have htext : (ofParts (part :: (above ++ [last]))).toList =
        part.toList ++ '/' :: (ofParts (above ++ [last])).toList := by
      rw [ofParts, String.intercalate_cons_of_ne_nil (by simp)]
      simp [ofParts]
    rw [List.cons_append, parts, htext, List.splitOn_append_cons_self_of_not_mem hpart,
      List.map_cons, String.ofList_toList, List.cons_append, ← ih habove]
    rfl

theorem exists_front (above : List String) :
    ∃ front : String, ∀ last, ofParts (above ++ [last]) = front ++ last := by
  by_cases h : above = []
  · exact ⟨"", fun last => by simp [h, ofParts, String.intercalate_singleton]⟩
  · refine ⟨ofParts above ++ "/", fun last => ?_⟩
    rw [ofParts, String.intercalate_append_of_ne_nil h (List.cons_ne_nil _ _),
      String.intercalate_singleton]
    rfl

theorem ofParts_parts (path : Path) : ofParts path.parts = path := by
  have htext : (ofParts path.parts).toList = path.toList := by
    rw [ofParts, String.toList_intercalate, parts, List.map_map]
    simp [Function.comp_def, List.intercalate_splitOn]
  exact String.toList_inj.mp htext

theorem dropIdle_append_singleton (above : List String) (h : isIdle name = false) :
    dropIdle (above ++ [name]) = above ++ [name] := by
  cases above with
  | nil => rfl
  | cons first rest => simp [dropIdle, h]

/-- The parts of a path that goes on with a name of its own. -/
structure Splits (path : Path) (above : List String) (name : String) : Prop where
  parts : path.parts = above ++ [name]
  not_empty : name ≠ ""
  not_dot : name ≠ "."
  not_dots : name ≠ ".."

theorem endsIn_iff : path.EndsIn name ↔ ∃ above, path.Splits above name := by
  constructor
  · intro h
    obtain ⟨above, hp, hempty, hdot, hdots⟩ := h
    exact ⟨above, hp, hempty, hdot, hdots⟩
  · intro h
    obtain ⟨above, hp, hempty, hdot, hdots⟩ := h
    exact ⟨above, hp, hempty, hdot, hdots⟩

theorem temporary_of_splits (h : path.Splits above name) (mark : String) :
    path.temporary mark = ofParts (dropIdle above ++ [temporaryName mark name]) := by
  have hidle : isIdle name = false := by simp [isIdle, h.not_empty, h.not_dot]
  have hname : path.fileName? = some name := by
    rw [fileName?, h.parts, dropIdle_append_singleton above hidle]
    simp [hidle, h.not_dots]
  rw [temporary, hname, Option.getD_some, sibling, hname, h.parts,
    dropIdle_append_singleton above hidle, List.dropLast_concat]
  rfl

theorem mem_of_mem_dropIdle {part : String} (h : part ∈ dropIdle above) : part ∈ above := by
  cases above with
  | nil => exact h
  | cons first rest =>
    rw [dropIdle, List.mem_cons, List.mem_reverse] at h
    refine List.mem_cons.mpr (h.imp_right fun hm => ?_)
    exact List.mem_reverse.mp ((List.dropWhile_suffix _).mem hm)

theorem parts_temporary (h : path.Splits above name) (mark : String) :
    (path.temporary mark).parts = dropIdle above ++ parts (temporaryName mark name) := by
  rw [temporary_of_splits h]
  refine parts_ofParts_append_singleton (fun part hm => ?_) _
  have hpart : part ∈ path.parts := by
    rw [h.parts]
    exact List.mem_append_left _ (mem_of_mem_dropIdle hm)
  exact notMem_of_mem_parts hpart

/-! ## Normal paths -/

/-- No part is a dot, and none is empty except for the first one of a path from the top. -/
def IsNormal (path : Path) : Prop :=
  (∀ part ∈ path.parts, part ≠ "." ∧ part ≠ "..") ∧ ∀ part ∈ path.parts.tail, part ≠ ""

instance (path : Path) : Decidable path.IsNormal := inferInstanceAs (Decidable (_ ∧ _))

theorem IsNormal.splits (h : path.IsNormal) :
    path = "" ∨ ∃ above name, path.Splits above name ∧ dropIdle above = above := by
  obtain ⟨hdots, hempty⟩ := h
  rcases List.eq_nil_or_concat path.parts with hp | ⟨above, name, hp⟩
  · exact absurd hp path.parts_ne_nil
  rw [List.concat_eq_append] at hp
  have hname : name ∈ path.parts := by simp [hp]
  obtain ⟨hdot, hdots'⟩ := hdots name hname
  cases above with
  | nil =>
    by_cases hn : name = ""
    · left
      rw [← ofParts_parts path, hp, hn]
      rfl
    · exact Or.inr ⟨[], name, ⟨hp, hn, hdot, hdots'⟩, rfl⟩
  | cons first rest =>
    refine Or.inr ⟨first :: rest, name, ⟨hp, hempty name (by simp [hp]), hdot, hdots'⟩, ?_⟩
    rcases List.eq_nil_or_concat rest with rfl | ⟨middle, last, rfl⟩
    · rfl
    · rw [List.concat_eq_append] at hp ⊢
      refine dropIdle_append_singleton (first :: middle) ?_
      have hlast := hempty last (by simp [hp])
      have hnot := (hdots last (by simp [hp])).1
      simp [isIdle, hlast, hnot]

theorem parts_eq_singleton (h : '/' ∉ path.toList) : path.parts = [path] := by
  rw [parts, List.splitOn_eq_singleton h, List.map_singleton, String.ofList_toList]

theorem toList_temporaryName (mark name : String) :
    (temporaryName mark name).toList =
      '.' :: name.toList ++ '.' :: mark.toList ++ ".tmp".toList := by
  simp [temporaryName, String.toList_append, toString]

theorem temporaryName_inj {other : String}
    (h : temporaryName mark name = temporaryName mark other) : name = other := by
  have hlist := congrArg String.toList h
  simpa [toList_temporaryName, String.toList_inj] using hlist

theorem parts_temporaryName (hmark : '/' ∉ mark.toList) (hname : '/' ∉ name.toList) :
    parts (temporaryName mark name) = [temporaryName mark name] := by
  refine parts_eq_singleton ?_
  simp [toList_temporaryName, hmark, hname]

theorem temporary_empty (mark : String) : temporary mark "" = temporaryName mark "" := by
  have hnone : fileName? "" = none := by decide
  rw [temporary, sibling, hnone]
  rfl

theorem check_of_check_temporary (hs : path.Splits above name)
    (hidle : dropIdle above = above) (h : (path.temporary mark).check = .ok ()) :
    path.check = .ok () := by
  obtain ⟨front, hfront⟩ := exists_front above
  have hpath : path = front ++ name := by rw [← hfront, ← hs.parts, ofParts_parts]
  have htemporary : path.temporary mark = front ++ temporaryName mark name := by
    rw [temporary_of_splits hs, hidle, hfront]
  obtain ⟨hnul, -, hsize⟩ := check_eq_ok_iff.mp h
  rw [htemporary] at hnul hsize
  refine check_eq_ok_iff.mpr ⟨?_, ?_, ?_⟩
  · simp only [hasNul, hpath, String.toList_append, toList_temporaryName, List.any_append,
      List.any_cons, Bool.or_eq_false_iff] at hnul ⊢
    exact ⟨hnul.1, hnul.2.1.1.2⟩
  · simp [hpath, hs.not_empty]
  · simp only [hpath, temporaryName, String.utf8ByteSize_append, toString] at hsize ⊢
    omega

end Path

namespace Tree

open Traversal

variable {t : Tree} {mark name : String} {path other : Path} {above : List String}
  {location directory place : Location}

theorem follow_append_eq_ok_iff {back : List String} {target : Location} :
    t.follow location (above ++ back) = .ok target ↔
      ∃ directory, t.follow location above = .ok directory ∧
        t.follow directory back = .ok target := by
  induction above generalizing location with
  | nil => simp [follow]
  | cons part above ih =>
    rw [List.cons_append, follow_cons_eq_ok_iff, ih]
    simp only [follow_cons_eq_ok_iff, and_assoc, exists_and_left]

theorem follow_dropIdle (h : t.follow location above = .ok directory) :
    t.follow location (Path.dropIdle above) = .ok directory := by
  cases above with
  | nil => exact h
  | cons first rest =>
    induction rest using List.reverseRecOn with
    | nil => exact h
    | append_singleton rest part ih =>
      cases hp : Path.isIdle part with
      | false =>
        have hkept := Path.dropIdle_append_singleton (first :: rest) hp
        rw [List.cons_append] at hkept
        rwa [hkept]
      | true =>
        have hdrop : Path.dropIdle (first :: (rest ++ [part])) = Path.dropIdle (first :: rest) := by
          simp [Path.dropIdle, hp]
        rw [← List.cons_append, follow_append_singleton_eq_ok_iff] at h
        obtain ⟨place, hf, -, -, rfl⟩ := h
        have hplace : enter place part = place := if_pos hp
        rw [hplace] at ih ⊢
        rw [hdrop]
        exact ih hf

theorem exists_directory (h : path.Splits above name) (hl : t.locate path = .ok location)
    (hp : t.locate (path.temporary mark) = .ok place) :
    ∃ directory, location = name :: directory ∧
      t.follow directory (Path.parts (Path.temporaryName mark name)) = .ok place := by
  obtain ⟨-, hf⟩ := locate_eq_ok_iff.mp hl
  obtain ⟨-, ht⟩ := locate_eq_ok_iff.mp hp
  rw [h.parts, follow_append_singleton_eq_ok_iff] at hf
  rw [Path.parts_temporary h, follow_append_eq_ok_iff] at ht
  obtain ⟨directory, hf, -, -, rfl⟩ := hf
  obtain ⟨found, hfound, ht⟩ := ht
  obtain rfl := Except.ok.inj ((follow_dropIdle hf).symm.trans hfound)
  exact ⟨directory, enter_of_name h.not_empty h.not_dot h.not_dots directory, ht⟩

/-- Paths to the same target have their temporary file in common. -/
theorem temporary_unique {name' : String} {place' : Location} (he : path.EndsIn name)
    (ho : other.EndsIn name') (hl : t.locate path = .ok location)
    (hl' : t.locate other = .ok location) (hp : t.locate (path.temporary mark) = .ok place)
    (hp' : t.locate (other.temporary mark) = .ok place') : place = place' := by
  obtain ⟨above, hs⟩ := Path.endsIn_iff.mp he
  obtain ⟨above', hs'⟩ := Path.endsIn_iff.mp ho
  obtain ⟨directory, rfl, hf⟩ := exists_directory hs hl hp
  obtain ⟨directory', heq, hf'⟩ := exists_directory hs' hl' hp'
  obtain ⟨rfl, rfl⟩ := List.cons.inj heq
  exact Except.ok.inj (hf.symm.trans hf')

theorem follow_temporaryName (hmark : '/' ∉ mark.toList) (hname : '/' ∉ name.toList)
    (h : t.follow directory (Path.parts (Path.temporaryName mark name)) = .ok place) :
    t.node? directory = some .directory ∧ place = Path.temporaryName mark name :: directory := by
  have hne : ∀ short : String, short.toList.length ≤ 2 →
      Path.temporaryName mark name ≠ short := by
    intro short hshort he
    rw [← he, Path.toList_temporaryName] at hshort
    simp at hshort
    omega
  rw [Path.parts_temporaryName hmark hname, follow_cons_eq_ok_iff] at h
  obtain ⟨hd, -, h⟩ := h
  cases h
  exact ⟨hd, enter_of_name (hne "" (by decide)) (hne "." (by decide)) (hne ".." (by decide)) _⟩

theorem place_of_temporary (hmark : '/' ∉ mark.toList)
    (hs : path.Splits above name) (hidle : Path.dropIdle above = above)
    (h : t.locate (path.temporary mark) = .ok place) :
    ∃ directory, t.follow [] above = .ok directory ∧ t.node? directory = some .directory ∧
      place = Path.temporaryName mark name :: directory := by
  obtain ⟨-, hf⟩ := locate_eq_ok_iff.mp h
  rw [Path.parts_temporary hs, hidle, follow_append_eq_ok_iff] at hf
  obtain ⟨directory, hf, ht⟩ := hf
  have hname : name ∈ path.parts := by simp [hs.parts]
  obtain ⟨hd, rfl⟩ := follow_temporaryName hmark (Path.notMem_of_mem_parts hname) ht
  exact ⟨directory, hf, hd, rfl⟩

theorem locate_of_temporary (hmark : '/' ∉ mark.toList) (hp : path.IsNormal)
    (ho : other.IsNormal) (hl : t.locate other = .ok location)
    (hplace : t.locate (other.temporary mark) = .ok place)
    (hshared : t.locate (path.temporary mark) = .ok place) : t.locate path = .ok location := by
  obtain ⟨hcheck, hf⟩ := locate_eq_ok_iff.mp hl
  obtain ⟨above, name, hs, hidle⟩ := ho.splits.resolve_left (Path.check_eq_ok_iff.mp hcheck).2.1
  obtain ⟨directory, hdirectory, hd, rfl⟩ := place_of_temporary hmark hs hidle hplace
  rw [hs.parts, follow_append_singleton_eq_ok_iff, hdirectory] at hf
  obtain ⟨found, hfound, -, hname, rfl⟩ := hf
  obtain rfl := Except.ok.inj hfound
  obtain ⟨htemporary, ht⟩ := locate_eq_ok_iff.mp hshared
  rcases hp.splits with rfl | ⟨above', name', hs', hidle'⟩
  · rw [Path.temporary_empty] at ht
    obtain ⟨-, he⟩ := follow_temporaryName hmark (by simp) ht
    exact absurd (Path.temporaryName_inj (List.cons.inj he).1) hs.not_empty
  · obtain ⟨directory', hdirectory', -, he⟩ := place_of_temporary hmark hs' hidle' hshared
    obtain ⟨htext, rfl⟩ := List.cons.inj he
    obtain rfl := Path.temporaryName_inj htext
    refine locate_eq_ok_iff.mpr ⟨Path.check_of_check_temporary hs' hidle' htemporary, ?_⟩
    rw [hs'.parts, follow_append_singleton_eq_ok_iff]
    exact ⟨directory, hdirectory', hd, hname, rfl⟩

theorem mem_temporaries_iff {targets : List Path} :
    place ∈ t.places (targets.map (Path.temporary mark)) ↔
      ∃ target ∈ targets, t.locate (target.temporary mark) = .ok place := by
  simp [mem_places_iff]

/-- No target leads where a temporary file of the targets is made. -/
def Apart (t : Tree) (mark : String) (targets : List Path) : Prop :=
  ∀ location ∈ t.places targets, location ∉ t.places (targets.map (Path.temporary mark))

instance (t : Tree) (mark : String) (targets : List Path) : Decidable (t.Apart mark targets) :=
  inferInstanceAs (Decidable (∀ location ∈ t.places targets, _))

theorem Apart.ne {targets : List Path} (h : t.Apart mark targets) (hp : path ∈ targets)
    (ho : other ∈ targets) (hl : t.locate path = .ok location)
    (hplace : t.locate (other.temporary mark) = .ok place) : location ≠ place := by
  intro he
  exact h location (mem_places_iff.mpr ⟨path, hp, hl⟩)
    (mem_temporaries_iff.mpr ⟨other, ho, he ▸ hplace⟩)

end Tree

end RecordMachine.Files
