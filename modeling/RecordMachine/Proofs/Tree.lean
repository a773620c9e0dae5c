import RecordMachine.Files.System
import RecordMachine.Proofs.Traversal
/-!
# Places in a tree

Each operation on a tree is told by the location that its path leads to and by what stands there.
-/
namespace RecordMachine.Files

namespace Path

def EndsIn (path : Path) (name : String) : Prop :=
  ∃ above, path.parts = above ++ [name] ∧ name ≠ "" ∧ name ≠ "." ∧ name ≠ ".."

theorem check_eq_ok_iff {path : Path} :
    path.check = .ok () ↔ path.hasNul = false ∧ path ≠ "" ∧ path.utf8ByteSize ≤ limit := by
  rw [check]
  split
  next h => simp [h]
  next h =>
    split
    next he => simp [String.isEmpty_iff.mp he]
    next he =>
      have hne : path ≠ "" := fun hempty => he (String.isEmpty_iff.mpr hempty)
      split
      next hl => simp [hl]
      next hl => simp [h, hne, Nat.le_of_not_lt hl]

theorem getLast?_splitOn_append (cs : List Char) {suffix : List Char} (h : '/' ∉ suffix) :
    ∃ front, ((cs ++ suffix).splitOn '/').getLast? = some (front ++ suffix) := by
  induction cs with
  | nil => exact ⟨[], by rw [List.nil_append, List.splitOn_eq_singleton h]; rfl⟩
  | cons c cs ih =>
    obtain ⟨front, hf⟩ := ih
    rw [List.cons_append, List.splitOn_cons_eq_if_modifyHead]
    cases hs : (cs ++ suffix).splitOn '/' with
    | nil => exact absurd hs (List.splitOn_ne_nil _ _)
    | cons part parts =>
      rw [hs] at hf
      split
      · exact ⟨front, by rw [List.getLast?_cons_cons, hf]⟩
      · cases parts with
        | nil => exact ⟨c :: front, by simpa using hf⟩
        | cons next parts => exact ⟨front, by simpa using hf⟩

theorem exists_endsIn {path : Path} {front suffix : List Char}
    (hp : path.toList = front ++ suffix) (hs : '/' ∉ suffix) (hlong : 2 < suffix.length) :
    ∃ name, path.EndsIn name := by
  obtain ⟨first, hl⟩ := getLast?_splitOn_append front hs
  have hparts : path.parts.getLast? = some (String.ofList (first ++ suffix)) := by
    rw [parts, hp, List.getLast?_map, hl, Option.map_some]
  obtain ⟨above, ha⟩ := List.getLast?_eq_some_iff.mp hparts
  have hne : ∀ short : String, short.toList.length ≤ 2 →
      String.ofList (first ++ suffix) ≠ short := by
    intro short hshort he
    rw [← he, String.toList_ofList, List.length_append] at hshort
    omega
  exact ⟨_, above, ha, hne "" (by decide), hne "." (by decide), hne ".." (by decide)⟩

theorem exists_toList_sibling (path : Path) (name : String) :
    ∃ front, (path.sibling name).toList = front ++ name.toList := by
  rw [sibling]
  split
  · generalize dropIdle (dropIdle path.parts).dropLast = above
    rw [ofParts]
    by_cases ha : above = []
    · exact ⟨[], by rw [ha, List.nil_append, String.intercalate_singleton]; rfl⟩
    · rw [String.intercalate_append_of_ne_nil ha (List.cons_ne_nil _ _),
        String.intercalate_singleton, String.toList_append]
      exact ⟨_, rfl⟩
  · split
    · exact ⟨path.toList, String.toList_append⟩
    · exact ⟨(path ++ "/").toList, String.toList_append⟩

theorem exists_endsIn_temporary (mark : String) (target : Path) :
    ∃ name, (target.temporary mark).EndsIn name := by
  let name := target.fileName?.getD ""
  obtain ⟨front, hf⟩ := target.exists_toList_sibling s!".{name}.{mark}.tmp"
  have hname : (s!".{name}.{mark}.tmp").toList = (s!".{name}.{mark}").toList ++ ".tmp".toList :=
    String.toList_append
  rw [hname, ← List.append_assoc] at hf
  exact exists_endsIn hf (by decide) (by decide)

end Path

namespace Tree

open Traversal

variable {t u : Tree} {path : Path} {location : Location}

theorem checkDirectory_eq_ok_iff :
    t.checkDirectory location = .ok () ↔ t.node? location = some .directory := by
  unfold checkDirectory
  split
  next h => simp [h]
  next h => simp [h]
  next h => simp [h]

theorem follow_cons_eq_ok_iff {part : String} {parts : List String} {target : Location} :
    t.follow location (part :: parts) = .ok target ↔
      t.node? location = some .directory ∧ Path.checkName part = .ok () ∧
        t.follow (enter location part) parts = .ok target := by
  rw [follow, seq_eq_ok_iff, seq_eq_ok_iff, checkDirectory_eq_ok_iff]

theorem follow_append_singleton_eq_ok_iff {above : List String} {name : String}
    {target : Location} :
    t.follow location (above ++ [name]) = .ok target ↔
      ∃ directory, t.follow location above = .ok directory ∧
        t.node? directory = some .directory ∧ Path.checkName name = .ok () ∧
        target = enter directory name := by
  induction above generalizing location with
  | nil =>
    rw [List.nil_append, follow_cons_eq_ok_iff, follow]
    constructor
    · intro h
      exact ⟨location, rfl, h.1, h.2.1, (Except.ok.inj h.2.2).symm⟩
    · intro h
      obtain ⟨directory, hd, hn, hc, rfl⟩ := h
      obtain rfl := Except.ok.inj hd
      exact ⟨hn, hc, rfl⟩
  | cons part above ih =>
    rw [List.cons_append, follow_cons_eq_ok_iff, ih]
    simp only [follow_cons_eq_ok_iff, and_assoc, exists_and_left]

theorem enter_of_name {name : String} (hempty : name ≠ "") (hdot : name ≠ ".")
    (hdots : name ≠ "..") (directory : Location) : enter directory name = name :: directory := by
  simp [enter, Path.isIdle, hempty, hdot, hdots]

theorem locate_eq_ok_iff :
    t.locate path = .ok location ↔
      path.check = .ok () ∧ t.follow [] path.parts = .ok location := by
  rw [locate, seq_eq_ok_iff]

theorem hasNul_of_locate (h : t.locate path = .ok location) : path.hasNul = false :=
  (Path.check_eq_ok_iff.mp (locate_eq_ok_iff.mp h).1).1

theorem slot_eq_ok_iff {above : List String} {name : String} (hp : path.parts = above ++ [name])
    (hn : name ≠ "") {s : Slot} :
    t.slot path = .ok s ↔
      path.check = .ok () ∧ ∃ directory, t.follow [] above = .ok directory ∧
        t.node? directory = some .directory ∧ ¬(name = "." ∨ name = "..") ∧
        s = ⟨directory, name, false⟩ := by
  have hempty : name.isEmpty = false := by simpa using hn
  have hlast : (path.parts.getLast? == some "") = false := by simpa [hp] using hn
  rw [slot, seq_eq_ok_iff, hlast, hp, List.reverse_append, List.reverse_singleton,
    List.singleton_append, List.dropWhile_cons_of_neg (by simp [hempty])]
  refine and_congr_right fun _ => ?_
  show (t.follow [] above.reverse.reverse >>= _) = _ ↔ _
  rw [List.reverse_reverse, bind_eq_ok_iff]
  refine exists_congr fun directory => and_congr_right fun _ => ?_
  rw [seq_eq_ok_iff, guard_eq_ok_iff, checkDirectory_eq_ok_iff]
  exact and_congr_right fun _ => and_congr_right fun _ => ⟨fun h => (Except.ok.inj h).symm,
    fun h => congrArg Except.ok h.symm⟩

theorem slashed_of_slot {s : Slot} (h : t.slot path = .ok s) :
    s.slashed = (path.parts.getLast? == some "") := by
  rw [slot, seq_eq_ok_iff] at h
  obtain ⟨-, h⟩ := h
  split at h
  next => cases h
  next =>
    obtain ⟨directory, -, h⟩ := bind_eq_ok_iff.mp h
    rw [seq_eq_ok_iff, guard_eq_ok_iff] at h
    obtain ⟨-, -, h⟩ := h
    cases h
    rfl

theorem locate_of_slot {s : Slot} (h : t.slot path = .ok s) (hs : s.slashed = false)
    (hc : Path.checkName s.name = .ok ()) :
    path.EndsIn s.name ∧ t.locate path = .ok (s.name :: s.directory) := by
  rcases List.eq_nil_or_concat path.parts with hp | ⟨above, name, hp⟩
  · rw [slot, seq_eq_ok_iff, hp] at h
    cases h.2
  · rw [List.concat_eq_append] at hp
    have hn : name ≠ "" := by
      intro hn
      rw [slashed_of_slot h, hp, hn] at hs
      simp at hs
    obtain ⟨hcheck, directory, hf, hd, hdots, rfl⟩ := (slot_eq_ok_iff hp hn).mp h
    obtain ⟨hdot, hdots⟩ := not_or.mp hdots
    refine ⟨⟨above, hp, hn, hdot, hdots⟩, locate_eq_ok_iff.mpr ⟨hcheck, ?_⟩⟩
    rw [hp, follow_append_singleton_eq_ok_iff]
    exact ⟨directory, hf, hd, hc, (enter_of_name hn hdot hdots directory).symm⟩

theorem exists_slot {name : String} (he : path.EndsIn name) (h : t.locate path = .ok location) :
    ∃ directory, t.slot path = .ok ⟨directory, name, false⟩ ∧
      Path.checkName name = .ok () ∧ location = name :: directory := by
  obtain ⟨above, hp, hn, hdot, hdots⟩ := he
  obtain ⟨hcheck, hf⟩ := locate_eq_ok_iff.mp h
  rw [hp, follow_append_singleton_eq_ok_iff] at hf
  obtain ⟨directory, hf, hd, hc, rfl⟩ := hf
  refine ⟨directory, ?_, hc, enter_of_name hn hdot hdots directory⟩
  exact (slot_eq_ok_iff hp hn).mpr ⟨hcheck, directory, hf, hd, not_or.mpr ⟨hdot, hdots⟩, rfl⟩

theorem create_eq_ok_iff {contents : List UInt8} :
    t.create path contents = .ok u ↔
      ∃ location, t.locate path = .ok location ∧ t.node? location ≠ some .directory ∧
        u = t.put location (.file contents) := by
  rw [create, bind_eq_ok_iff]
  refine exists_congr fun location => and_congr_right fun _ => ?_
  rw [guard_eq_ok_iff]
  exact and_congr_right fun _ => ⟨fun h => (Except.ok.inj h).symm,
    fun h => congrArg Except.ok h.symm⟩

theorem remove_eq_ok_iff :
    t.remove path = .ok u ↔
      ∃ location contents, t.locate path = .ok location ∧
        t.node? location = some (.file contents) ∧ u = t.erase location := by
  rw [remove, bind_eq_ok_iff]
  constructor
  · intro h
    obtain ⟨location, hl, h⟩ := h
    split at h
    next contents hn =>
      cases h
      exact ⟨location, contents, hl, hn, rfl⟩
    next => cases h
    next => cases h
  · intro h
    obtain ⟨location, contents, hl, hn, rfl⟩ := h
    exact ⟨location, hl, by rw [hn]⟩

theorem move_eq_ok_iff {source target : Path} :
    t.move source target = .ok u ↔
      (∃ name, source.EndsIn name) ∧ (∃ name, target.EndsIn name) ∧
        ∃ origin destination contents, t.locate source = .ok origin ∧
          t.locate target = .ok destination ∧ t.node? origin = some (.file contents) ∧
          t.node? destination ≠ some .directory ∧
          u = (t.erase origin).put destination (.file contents) := by
  constructor
  · intro h
    rw [move, guard_eq_ok_iff] at h
    obtain ⟨-, h⟩ := h
    obtain ⟨s, hs, h⟩ := bind_eq_ok_iff.mp h
    obtain ⟨d, hd, h⟩ := bind_eq_ok_iff.mp h
    rw [seq_eq_ok_iff] at h
    obtain ⟨hsource, h⟩ := h
    cases hn : t.node? (s.name :: s.directory) with
    | none =>
      simp only [hn] at h
      cases h
    | some node =>
      simp only [hn] at h
      cases node with
      | directory => cases h
      | file contents =>
        rw [seq_eq_ok_iff, guard_eq_ok_iff, guard_eq_ok_iff] at h
        obtain ⟨htarget, hslashed, hfree, h⟩ := h
        cases h
        obtain ⟨hs', hd'⟩ : s.slashed = false ∧ d.slashed = false := by simpa using hslashed
        obtain ⟨hends, hlocate⟩ := locate_of_slot hs hs' hsource
        obtain ⟨hends', hlocate'⟩ := locate_of_slot hd hd' htarget
        exact ⟨⟨_, hends⟩, ⟨_, hends'⟩, _, _, contents, hlocate, hlocate', hn, hfree, rfl⟩
  · intro h
    obtain ⟨⟨name, hs⟩, ⟨name', hd⟩, origin, destination, contents, ho, hde, hn, hfree, rfl⟩ := h
    obtain ⟨directory, hslot, hname, rfl⟩ := exists_slot hs ho
    obtain ⟨directory', hslot', hname', rfl⟩ := exists_slot hd hde
    have hnul := hasNul_of_locate ho
    have hnul' := hasNul_of_locate hde
    rw [move, guard_eq_ok_iff]
    refine ⟨by simp [hnul, hnul'], ?_⟩
    refine bind_eq_ok_iff.mpr ⟨_, hslot, bind_eq_ok_iff.mpr ⟨_, hslot', ?_⟩⟩
    refine seq_eq_ok_iff.mpr ⟨hname, ?_⟩
    simp only [hn]
    rw [seq_eq_ok_iff, guard_eq_ok_iff, guard_eq_ok_iff]
    exact ⟨hname', by simp, hfree, rfl⟩

theorem node?_put_self (h : location ≠ []) (node : Node) :
    (t.put location node).node? location = some node := by
  rw [node?_put _ _ _ _ h, if_pos rfl]

theorem node?_put_of_ne {other : Location} (h : other ≠ location) (node : Node) :
    (t.put location node).node? other = t.node? other := by
  cases other with
  | nil => rfl
  | cons name above => rw [node?_put _ _ _ _ (List.cons_ne_nil name above), if_neg h]

theorem node?_erase_self (h : location ≠ []) : (t.erase location).node? location = none := by
  rw [node?_erase _ _ _ h, if_pos rfl]

theorem node?_erase_of_ne {other : Location} (h : other ≠ location) :
    (t.erase location).node? other = t.node? other := by
  cases other with
  | nil => rfl
  | cons name above => rw [node?_erase _ _ _ (List.cons_ne_nil name above), if_neg h]

theorem node?_moved {origin other : Location} {contents : List UInt8} (ho : other ≠ origin)
    (hl : other ≠ location) :
    ((t.erase origin).put location (.file contents)).node? other = t.node? other := by
  rw [node?_put_of_ne hl, node?_erase_of_ne ho]

theorem read_eq_ok_iff {contents : List UInt8} :
    t.read path = .ok contents ↔
      ∃ location, t.locate path = .ok location ∧ t.node? location = some (.file contents) := by
  rw [read, bind_eq_ok_iff]
  refine exists_congr fun location => and_congr_right fun _ => ?_
  split
  next found hn => simp [hn]
  next hn => simp [hn]
  next hn => simp [hn]

theorem ne_nil_of_node?_ne (h : t.node? location ≠ some .directory) : location ≠ [] := by
  intro hnil
  exact h (hnil ▸ rfl)

theorem isDirectory_eq_false_iff :
    t.isDirectory path = false ↔
      ∀ location, t.locate path = .ok location → t.node? location ≠ some .directory := by
  unfold isDirectory
  split
  next location hl => simp [hl]
  next e hl => simp [hl]

theorem isDirectory_eq_false_of_locate (hl : t.locate path = .ok location)
    (hn : t.node? location ≠ some .directory) : t.isDirectory path = false := by
  rw [isDirectory_eq_false_iff, hl]
  intro other ho
  rwa [← Except.ok.inj ho]

end Tree

end RecordMachine.Files
