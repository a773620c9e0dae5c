import RecordMachine.Dump
/-!
# Dumped cells

A dump has one record for each address of its range, from the first to the last. The length of a
range counts these addresses in words of sixty-four bits, and is one short for a range that ends at
the highest address.
-/
namespace RecordMachine

def AddressRange.Within (range : AddressRange) (size : Nat) : Prop :=
  range.start.toNat ≤ range.stop.toNat ∧ range.stop.toNat < size

/-- The dump holds the cells of the range in ascending order. -/
structure Dump.Lists (dump : Dump) (cells : Array Word) (range : AddressRange) : Prop where
  addresses : dump.map Dump.Entry.address =
    List.range' range.start.toNat (range.stop.toNat + 1 - range.start.toNat)
  values : ∀ entry ∈ dump, cells[entry.address]? = some entry.value

theorem Dump.exists_ofCells {range : AddressRange} {cells : Array Word}
    (h : range.Within cells.size) (store : Store) :
    ∃ dump, Dump.ofCells store cells range = .ok dump ∧ dump.Lists cells range := by
  obtain ⟨hle, hlt⟩ := h
  have hrefused : ¬(range.stop.toNat < range.start.toNat ∨ cells.size ≤ range.stop.toNat) := by
    omega
  refine ⟨_, if_neg hrefused, ?_, fun entry hm => ?_⟩
  · rw [List.map_map]
    show (List.zipIdx _ _).map Prod.snd = _
    rw [List.zipIdx_map_snd, Array.length_toList, Array.size_extract, Nat.min_eq_left hlt]
  · obtain ⟨⟨value, address⟩, hz, rfl⟩ := List.mem_map.mp hm
    obtain ⟨hfirst, hvalue⟩ := List.mem_zipIdx_iff_le_and_getElem?_sub.mp hz
    rw [Array.getElem?_toList, Array.getElem?_extract, Nat.add_sub_of_le hfirst] at hvalue
    split at hvalue
    next => exact hvalue
    next => cases hvalue

theorem Dump.ofCells_of_not_within {range : AddressRange} {cells : Array Word}
    (h : ¬range.Within cells.size) (store : Store) :
    Dump.ofCells store cells range =
      .error (.rangeOutside store range.start.toNat range.stop.toNat cells.size) := by
  refine if_pos ?_
  rw [AddressRange.Within] at h
  omega

theorem Dump.within_of_ofCells {range : AddressRange} {store : Store} {cells : Array Word}
    {dump : Dump} (h : Dump.ofCells store cells range = .ok dump) :
    range.Within cells.size ∧ dump.Lists cells range := by
  by_cases hw : range.Within cells.size
  · obtain ⟨listed, hlisted, hl⟩ := Dump.exists_ofCells hw store
    rw [h] at hlisted
    cases hlisted
    exact ⟨hw, hl⟩
  · rw [Dump.ofCells_of_not_within hw] at h
    cases h

theorem Dump.Lists.length_eq {dump : Dump} {cells : Array Word} {range : AddressRange}
    (h : dump.Lists cells range) :
    dump.length = range.stop.toNat + 1 - range.start.toNat := by
  have hlength := congrArg List.length h.addresses
  rwa [List.length_map, List.length_range'] at hlength

theorem Dump.Lists.eq_map {dump : Dump} {cells : Array Word} {range : AddressRange}
    (h : dump.Lists cells range) :
    dump = (List.range' range.start.toNat (range.stop.toNat + 1 - range.start.toNat)).map
      fun address => ⟨address, cells[address]?.getD 0⟩ := by
  have hentry : ∀ r ∈ dump, (⟨r.address, cells[r.address]?.getD 0⟩ : Dump.Entry) = id r := by
    intro r hr
    rw [h.values r hr]
    rfl
  rw [← h.addresses, List.map_map]
  exact ((List.map_congr_left hentry).trans (List.map_id dump)).symm

namespace AddressRange

/-- The length is the number of the addresses from the first to the last, wherever this is a number
of sixty-four bits, and a range is empty only if its ends are reversed. -/
def CountsAddresses (range : AddressRange) : Prop :=
  (range.isEmpty = true ↔ range.stop < range.start) ∧
    (range.start ≤ range.stop → range.stop.toNat - range.start.toNat + 1 < UInt64.size →
      range.length = range.stop.toNat - range.start.toNat + 1)

theorem isEmpty_iff {range : AddressRange} : range.isEmpty = true ↔ range.length = 0 := by
  rw [isEmpty, beq_iff_eq]

theorem length_of_lt {range : AddressRange} (h : range.stop.toNat + 1 < UInt64.size) :
    range.length = range.stop.toNat + 1 - range.start.toNat := by
  rw [length, Nat.min_eq_left]
  exact Nat.le_pred_of_lt h

/-- The address behind the highest one is no number of sixty-four bits. -/
theorem length_of_eq {range : AddressRange} (h : range.stop.toNat + 1 = UInt64.size) :
    range.length = range.stop.toNat - range.start.toNat := by
  have hlimit : Text.wordLimit = UInt64.size := rfl
  rw [length, hlimit, ← h, Nat.min_eq_right (Nat.sub_le _ 1), Nat.add_sub_cancel]

theorem countsAddresses_of_lt {range : AddressRange} (h : range.stop.toNat + 1 < UInt64.size) :
    range.CountsAddresses := by
  rw [CountsAddresses, isEmpty_iff, length_of_lt h, UInt64.lt_iff_toNat_lt, UInt64.le_iff_toNat_le]
  omega

/-- The length of a range that ends below the highest address counts its addresses. At the highest
address it is one too small, so the range of this address alone counts as empty. No store has a cell
there, so a dump has as many records as its range is long. -/
theorem length_counts (range : AddressRange) :
    (range.stop.toNat + 1 < UInt64.size → range.CountsAddresses) ∧
    (range.stop.toNat + 1 = UInt64.size →
      range.length = range.stop.toNat - range.start.toNat ∧
        (range.isEmpty = true ↔ range.start = range.stop)) ∧
    ∀ (store : Store) (cells : Array Word), cells.size < UInt64.size →
      ((∃ dump, Dump.ofCells store cells range = .ok dump) ↔ range.Within cells.size) ∧
      ∀ dump, Dump.ofCells store cells range = .ok dump → dump.length = range.length := by
  refine ⟨countsAddresses_of_lt, fun hs => ?_, fun store cells hsize => ⟨?_, fun dump hd => ?_⟩⟩
  · have hstart := range.start.toNat_lt_size
    have hlength := length_of_eq hs
    refine ⟨hlength, ?_⟩
    rw [isEmpty_iff, hlength, ← UInt64.toNat_inj]
    omega
  · constructor
    · rintro ⟨dump, hd⟩
      exact (Dump.within_of_ofCells hd).1
    · intro hw
      obtain ⟨dump, hd, -⟩ := Dump.exists_ofCells hw store
      exact ⟨dump, hd⟩
  · obtain ⟨⟨-, hlt⟩, hl⟩ := Dump.within_of_ofCells hd
    rw [hl.length_eq, length_of_lt (Nat.lt_of_le_of_lt hlt hsize)]

theorem length_counts_three :
    (∃ range : AddressRange, range = ⟨1, 3⟩ ∧ range.stop.toNat + 1 < UInt64.size ∧
      range.CountsAddresses ∧ range.length = 3) ∧
    (∃ range : AddressRange, range = ⟨5, 18446744073709551615⟩ ∧
      range.stop.toNat + 1 = UInt64.size ∧ range.length = 18446744073709551610 ∧
      range.isEmpty = false) ∧
    ∃ (cells : Array Word) (dump : Dump), cells = #[10, 11, 12, 13, 14] ∧
      cells.size < UInt64.size ∧ Dump.ofCells .memory cells ⟨1, 3⟩ = .ok dump ∧ dump.length = 3 := by
  obtain ⟨hbelow, -, hdump⟩ := length_counts ⟨1, 3⟩
  obtain ⟨-, hhighest, -⟩ := length_counts ⟨5, 18446744073709551615⟩
  have hwithin : Within ⟨1, 3⟩ (#[10, 11, 12, 13, 14] : Array Word).size := ⟨by decide, by decide⟩
  obtain ⟨hok, hlength⟩ := hdump .memory #[10, 11, 12, 13, 14] (by decide)
  obtain ⟨dump, hd⟩ := hok.mpr hwithin
  exact ⟨⟨_, rfl, by decide, hbelow (by decide), rfl⟩,
    ⟨_, rfl, by decide, (hhighest (by decide)).1, by decide⟩,
    _, dump, rfl, by decide, hd, hlength dump hd⟩

/-- The range of the highest address alone covers an address, but is empty by its length. -/
theorem not_countsAddresses :
    ¬CountsAddresses ⟨18446744073709551615, 18446744073709551615⟩ := by
  rintro ⟨hempty, -⟩
  exact absurd (hempty.mp rfl) (by decide)

end AddressRange

end RecordMachine
