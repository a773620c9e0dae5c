import RecordMachine.Proofs.Tree
/-!
# Trees that differ in files

A path leads through directories only, so making and removing files leaves all paths where they
lead. What was put at a location and cleared later leaves no trace.
-/
namespace RecordMachine.Files.Tree

variable {t u : Tree} {path : Path} {location : Location}

/-- Directories stand at the same locations, so that paths lead to the same places. -/
def SameDirectories (t u : Tree) : Prop :=
  ∀ location, t.node? location = some .directory ↔ u.node? location = some .directory

namespace SameDirectories

theorem refl (t : Tree) : SameDirectories t t := fun _ => Iff.rfl

theorem symm (h : SameDirectories t u) : SameDirectories u t := fun location => (h location).symm

theorem trans {v : Tree} (h : SameDirectories t u) (h' : SameDirectories u v) :
    SameDirectories t v :=
  fun location => (h location).trans (h' location)

theorem follow (h : SameDirectories t u) {parts : List String} {target : Location} :
    t.follow location parts = .ok target ↔ u.follow location parts = .ok target := by
  induction parts generalizing location with
  | nil => rfl
  | cons part parts ih => rw [follow_cons_eq_ok_iff, follow_cons_eq_ok_iff, h, ih]

theorem locate (h : SameDirectories t u) :
    t.locate path = .ok location ↔ u.locate path = .ok location := by
  rw [locate_eq_ok_iff, locate_eq_ok_iff, h.follow]

theorem isDirectory (h : SameDirectories t u) (hd : t.isDirectory path = false) :
    u.isDirectory path = false := by
  rw [isDirectory_eq_false_iff] at hd ⊢
  intro location hl hn
  exact hd location (h.locate.mpr hl) ((h location).mpr hn)

end SameDirectories

theorem sameDirectories_put (h : t.node? location ≠ some .directory) (contents : List UInt8) :
    SameDirectories t (t.put location (.file contents)) := by
  intro other
  by_cases ho : other = location
  · subst ho
    rw [node?_put_self (ne_nil_of_node?_ne h)]
    simp [h]
  · rw [node?_put_of_ne ho]

/-! ## Absent files -/

/-- Nothing stands where the path leads, if it leads anywhere. -/
def Absent (t : Tree) (path : Path) : Prop :=
  ∀ location, t.locate path = .ok location → t.node? location = none

instance (t : Tree) (path : Path) : Decidable (t.Absent path) :=
  match h : t.locate path with
  | .ok location => decidable_of_iff (t.node? location = none) (by simp [Absent, h])
  | .error _ => .isTrue (by simp [Absent, h])

theorem Absent.put (h : t.Absent path) (hn : t.node? location ≠ some .directory)
    (hl : t.locate path ≠ .ok location) (contents : List UInt8) :
    (t.put location (.file contents)).Absent path := by
  intro other ho
  have hother := (sameDirectories_put hn contents).locate.mpr ho
  have hne : other ≠ location := by
    intro he
    exact hl (he ▸ hother)
  rw [node?_put_of_ne hne, h other hother]

/-! ## Places of paths -/

def place? (t : Tree) (path : Path) : Option Location := (t.locate path).toOption

theorem place?_eq_some_iff : t.place? path = some location ↔ t.locate path = .ok location := by
  unfold place?
  cases t.locate path <;> simp [Except.toOption]

theorem mem_toList_place?_iff :
    location ∈ (t.place? path).toList ↔ t.locate path = .ok location := by
  rw [Option.mem_toList, place?_eq_some_iff]

theorem SameDirectories.place? (h : SameDirectories t u) (path : Path) :
    t.place? path = u.place? path := by
  refine Option.ext fun location => ?_
  rw [place?_eq_some_iff, place?_eq_some_iff, h.locate]

def places (t : Tree) (paths : List Path) : List Location := paths.filterMap t.place?

theorem places_nil (t : Tree) : t.places [] = [] := List.filterMap_nil

theorem places_cons (t : Tree) (path : Path) (paths : List Path) :
    t.places (path :: paths) = (t.place? path).toList ++ t.places paths := by
  unfold places
  cases h : t.place? path with
  | none => rw [List.filterMap_cons_none h, Option.toList_none, List.nil_append]
  | some location =>
    rw [List.filterMap_cons_some h, Option.toList_some, List.singleton_append]

theorem places_cons_of_locate (h : t.locate path = .ok location) (paths : List Path) :
    t.places (path :: paths) = location :: t.places paths := by
  rw [places_cons, place?_eq_some_iff.mpr h, Option.toList_some, List.singleton_append]

theorem mem_places_iff {paths : List Path} :
    location ∈ t.places paths ↔ ∃ path ∈ paths, t.locate path = .ok location := by
  simp only [places, List.mem_filterMap, place?_eq_some_iff]

theorem node?_ne_directory_of_mem_places {paths : List Path}
    (h : ∀ path ∈ paths, t.isDirectory path = false) (hm : location ∈ t.places paths) :
    t.node? location ≠ some .directory := by
  obtain ⟨path, hp, hl⟩ := mem_places_iff.mp hm
  exact isDirectory_eq_false_iff.mp (h path hp) location hl

theorem SameDirectories.places (h : SameDirectories t u) (paths : List Path) :
    t.places paths = u.places paths :=
  congrArg paths.filterMap (funext h.place?)

/-! ## Locations that are cleared -/

def clear (t : Tree) (locations : List Location) : Tree :=
  ⟨t.nodes.filter fun entry => entry.1 ∉ locations⟩

theorem clear_nil (t : Tree) : t.clear [] = t :=
  congrArg Tree.mk (List.filter_eq_self.mpr fun _ _ => decide_eq_true List.not_mem_nil)

theorem clear_clear (t : Tree) (first next : List Location) :
    (t.clear first).clear next = t.clear (first ++ next) := by
  simp [clear, List.filter_filter, Bool.and_comm]

theorem erase_eq_clear (t : Tree) (location : Location) :
    t.erase location = t.clear [location] := by
  refine congrArg Tree.mk (List.filter_congr fun entry _ => ?_)
  by_cases h : entry.1 = location
  · simp [h]
  · simp [h]

theorem clear_congr {first next : List Location}
    (h : ∀ location, location ∈ first ↔ location ∈ next) (t : Tree) :
    t.clear first = t.clear next := by
  simp only [clear, h]

theorem clear_put {locations : List Location} (h : location ∈ locations) (node : Node) :
    (t.put location node).clear locations = t.clear locations := by
  have hsub : ∀ other, other ∈ [location] ++ locations ↔ other ∈ locations := by
    intro other
    simp only [List.singleton_append, List.mem_cons]
    exact or_iff_right_of_imp fun ho => ho ▸ h
  calc (t.put location node).clear locations
      = (t.erase location).clear locations := by simp [put, clear, h]
    _ = t.clear locations := by rw [erase_eq_clear, clear_clear, clear_congr hsub]

theorem node?_clear (t : Tree) (locations : List Location) {other : Location} (h : other ≠ []) :
    (t.clear locations).node? other = if other ∈ locations then none else t.node? other := by
  induction locations generalizing t with
  | nil => simp [clear_nil]
  | cons location locations ih =>
    rw [← List.singleton_append, ← clear_clear, ih, ← erase_eq_clear, node?_erase _ _ _ h]
    by_cases hl : other ∈ locations
    · simp [hl]
    · simp [hl]

theorem node?_clear_of_notMem {locations : List Location} (h : location ∉ locations) :
    (t.clear locations).node? location = t.node? location := by
  cases location with
  | nil => rfl
  | cons name above => rw [node?_clear _ _ (List.cons_ne_nil name above), if_neg h]

theorem node?_clear_eq_or (t : Tree) (locations : List Location) (location : Location) :
    (t.clear locations).node? location = t.node? location ∨
      (t.clear locations).node? location = none := by
  by_cases h : location ∈ locations
  · cases location with
    | nil => exact Or.inl rfl
    | cons name above =>
      rw [node?_clear _ _ (List.cons_ne_nil name above), if_pos h]
      exact Or.inr rfl
  · exact Or.inl (node?_clear_of_notMem h)

theorem clear_eq_self {locations : List Location}
    (h : ∀ location ∈ locations, t.node? location = none) : t.clear locations = t := by
  have hfilter : t.nodes.filter (fun entry => entry.1 ∉ locations) = t.nodes := by
    refine List.filter_eq_self.mpr fun entry he => decide_eq_true fun hl => ?_
    have hn := h entry.1 hl
    cases hp : entry.1 with
    | nil =>
      rw [hp] at hn
      cases hn
    | cons name above =>
      rw [hp] at hn
      have hfound := List.lookup_eq_none_iff.mp hn entry he
      simp [hp] at hfound
  rw [clear, hfilter]

theorem clear_put_self (h : t.node? location = none) (node : Node) :
    (t.put location node).clear [location] = t := by
  rw [clear_put (List.mem_singleton_self location)]
  exact clear_eq_self (by simpa using h)

theorem sameDirectories_clear {locations : List Location}
    (h : ∀ location ∈ locations, t.node? location ≠ some .directory) :
    SameDirectories t (t.clear locations) := by
  intro other
  cases other with
  | nil => exact Iff.rfl
  | cons name above =>
    rw [node?_clear _ _ (List.cons_ne_nil name above)]
    split
    next ho => simp [h _ ho]
    next => rfl

theorem Absent.clear {locations : List Location} (h : t.Absent path)
    (hn : ∀ location ∈ locations, t.node? location ≠ some .directory) :
    (t.clear locations).Absent path := by
  intro other ho
  have hother := h other ((sameDirectories_clear hn).locate.mpr ho)
  have hne : other ≠ [] := ne_nil_of_node?_ne (t := t) (by simp [hother])
  rw [node?_clear _ _ hne, hother, ite_self]

theorem Absent.erase (h : t.Absent path) (hn : t.node? location ≠ some .directory) :
    (t.erase location).Absent path := by
  rw [erase_eq_clear]
  exact h.clear (by simpa using hn)

theorem node?_congr_of_clear {locations : List Location} (h : u.clear locations = t.clear locations)
    (hl : location ∉ locations) : u.node? location = t.node? location := by
  rw [← node?_clear_of_notMem (t := u) hl, h, node?_clear_of_notMem hl]

/-- The tree after an attempt to remove a file. -/
def without (t : Tree) (path : Path) : Tree :=
  match t.remove path with
  | .ok u => u
  | .error _ => t

theorem without_eq_clear (h : t.isDirectory path = false) :
    t.without path = t.clear (t.place? path).toList := by
  rw [isDirectory_eq_false_iff] at h
  unfold without
  split
  next u hu =>
    obtain ⟨location, contents, hl, -, rfl⟩ := remove_eq_ok_iff.mp hu
    rw [place?_eq_some_iff.mpr hl, erase_eq_clear, Option.toList_some]
  next e he =>
    refine (clear_eq_self fun location hm => ?_).symm
    have hl := mem_toList_place?_iff.mp hm
    cases hn : t.node? location with
    | none => rfl
    | some node =>
      cases node with
      | directory => exact absurd hn (h location hl)
      | file contents =>
        rw [remove_eq_ok_iff.mpr ⟨location, contents, hl, hn, rfl⟩] at he
        cases he

theorem sameDirectories_without (path : Path) (t : Tree) :
    SameDirectories t (t.without path) := by
  unfold without
  split
  next u hu =>
    obtain ⟨location, contents, -, hn, rfl⟩ := remove_eq_ok_iff.mp hu
    rw [erase_eq_clear]
    exact sameDirectories_clear (by simp [hn])
  next => exact SameDirectories.refl t

theorem sameDirectories_move {source target : Path} (h : t.move source target = .ok u) :
    SameDirectories t u := by
  obtain ⟨-, -, origin, location, contents, -, -, hn, hfree, rfl⟩ := move_eq_ok_iff.mp h
  have hsame : SameDirectories t (t.erase origin) := by
    rw [erase_eq_clear]
    exact sameDirectories_clear (by simp [hn])
  exact hsame.trans (sameDirectories_put (fun hd => hfree ((hsame location).mpr hd)) contents)

theorem SameDirectories.without (h : SameDirectories t u) (hl : t.locate path = .ok location)
    (hn : t.node? location ≠ some .directory) : u.without path = u.clear [location] := by
  have hd := isDirectory_eq_false_of_locate hl hn
  rw [without_eq_clear (h.isDirectory hd), ← h.place?, place?_eq_some_iff.mpr hl,
    Option.toList_some]

theorem without_clear_of_move {source target : Path} (h : t.move source target = .ok u)
    {locations : List Location} (hd : ∀ location ∈ locations, u.node? location ≠ some .directory) :
    (u.clear locations).without target = t.clear (t.places [source, target] ++ locations) := by
  have hsame := (sameDirectories_move h).trans (sameDirectories_clear hd)
  obtain ⟨-, -, origin, location, contents, ho, hl, -, hfree, rfl⟩ := move_eq_ok_iff.mp h
  have hplaces : t.places [source, target] = [origin, location] := by
    simp [places, place?_eq_some_iff.mpr ho, place?_eq_some_iff.mpr hl]
  rw [hsame.without hl hfree, clear_clear, clear_put (by simp), erase_eq_clear, clear_clear, hplaces]
  refine clear_congr (fun other => ?_) t
  simp [or_comm]

end RecordMachine.Files.Tree
