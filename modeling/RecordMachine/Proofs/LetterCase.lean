import RecordMachine.Opcode
import RecordMachine.Proofs.Rows
/-!
# Letter case

Changing the case of letters moves them by thirty-two and keeps all other characters, so a command
is found in any case.
-/
namespace RecordMachine

namespace Text

theorem toNat_toUpper (c : Char) :
    c.toUpper.toNat = if 97 ≤ c.toNat ∧ c.toNat ≤ 122 then c.toNat - 32 else c.toNat := by
  have hlt := c.val.toNat_lt
  unfold Char.toUpper
  simp only [UInt32.le_iff_toNat_le]
  split
  next h =>
    have hc : 97 ≤ c.toNat ∧ c.toNat ≤ 122 := h
    have hv : (c.val + ('A'.val - 'a'.val)).toNat = c.val.toNat - 32 := by
      rw [UInt32.toNat_add]
      change 97 ≤ c.val.toNat ∧ c.val.toNat ≤ 122 at hc
      change (c.val.toNat + 4294967264) % 2 ^ 32 = c.val.toNat - 32
      omega
    rw [if_pos hc]
    exact hv
  next h => exact (if_neg h).symm

theorem toNat_toLower (c : Char) :
    c.toLower.toNat = if 65 ≤ c.toNat ∧ c.toNat ≤ 90 then c.toNat + 32 else c.toNat := by
  unfold Char.toLower
  simp only [UInt32.le_iff_toNat_le, ge_iff_le]
  split
  next h =>
    have hc : 65 ≤ c.toNat ∧ c.toNat ≤ 90 := h
    have hv : (c.val + ('a'.val - 'A'.val)).toNat = c.val.toNat + 32 := by
      rw [UInt32.toNat_add]
      change 65 ≤ c.val.toNat ∧ c.val.toNat ≤ 90 at hc
      change (c.val.toNat + 32) % 2 ^ 32 = c.val.toNat + 32
      omega
    rw [if_pos hc]
    exact hv
  next h => exact (if_neg h).symm

theorem toUpper_toLower (c : Char) : c.toLower.toUpper = c.toUpper := by
  rw [← Char.toNat_inj, toNat_toUpper, toNat_toUpper, toNat_toLower]
  by_cases hc : 65 ≤ c.toNat ∧ c.toNat ≤ 90
  · rw [if_pos hc, if_pos (by omega), if_neg (by omega)]
    omega
  · rw [if_neg hc]

theorem map_toUpper_of_map_toLower {name lower : List Char} (h : name.map Char.toLower = lower) :
    name.map Char.toUpper = lower.map Char.toUpper := by
  rw [← h, List.map_map]
  exact List.map_congr_left fun c _ => (toUpper_toLower c).symm

theorem isBlank_toUpper (c : Char) : isBlank c.toUpper = isBlank c := by
  rw [Bool.eq_iff_iff]
  simp only [isBlank, toNat_toUpper, Bool.or_eq_true, Bool.and_eq_true, decide_eq_true_eq,
    beq_iff_eq]
  split <;> omega

theorem trim_eq_self {cs : List Char} (h : ∀ c ∈ cs, isBlank c = false) : trim cs = cs := by
  have hdrop : ∀ ds : List Char, (∀ c ∈ ds, isBlank c = false) → ds.dropWhile isBlank = ds := by
    intro ds hds
    cases ds with
    | nil => rfl
    | cons d ds => simp [hds d List.mem_cons_self]
  have hrev : ∀ c ∈ cs.reverse, isBlank c = false := fun c hc => h c (List.mem_reverse.mp hc)
  rw [trim, hdrop cs h, hdrop _ hrev, List.reverse_reverse]

theorem digitValue_eq (c : Char) :
    digitValue c = if 97 ≤ c.toNat ∧ c.toNat ≤ 102 then c.toNat - 87
      else if 65 ≤ c.toNat ∧ c.toNat ≤ 70 then c.toNat - 55 else c.toNat - 48 := by
  have hlower : 'a' ≤ c ∧ c ≤ 'f' ↔ 97 ≤ c.toNat ∧ c.toNat ≤ 102 := Iff.rfl
  have hupper : 'A' ≤ c ∧ c ≤ 'F' ↔ 65 ≤ c.toNat ∧ c.toNat ≤ 70 := Iff.rfl
  have ha : 'a'.toNat = 97 := rfl
  have hA : 'A'.toNat = 65 := rfl
  have hz : '0'.toNat = 48 := rfl
  simp only [digitValue, hlower, hupper, ha, hA, hz]
  split
  · omega
  · split <;> omega

end Text

namespace Opcode

theorem ofMnemonic?_of_map_toUpper {name upper : String}
    (h : name.toList.map Char.toUpper = upper.toList)
    (hb : upper.toList.any Text.isBlank = false) :
    ofMnemonic? name = spellings.lookup upper := by
  have hname : ∀ c ∈ name.toList, Text.isBlank c = false := by
    intro c hc
    have hmem : c.toUpper ∈ upper.toList := h ▸ List.mem_map_of_mem hc
    rw [← Text.isBlank_toUpper, ← Bool.not_eq_true]
    exact List.any_eq_false.mp hb _ hmem
  rw [ofMnemonic?, Text.trim_eq_self hname, h, String.ofList_toList]

end Opcode

namespace Table

theorem isWordStart_toUpper (c : Char) : isWordStart c.toUpper = isWordStart c := by
  rw [Bool.eq_iff_iff, isWordStart_iff, isWordStart_iff, Text.toNat_toUpper]
  split <;> omega

theorem isWordChar_toLower (c : Char) : isWordChar c.toLower = isWordChar c := by
  rw [Bool.eq_iff_iff, isWordChar_iff, isWordChar_iff, isWordStart_iff, isWordStart_iff,
    isDigit_iff, isDigit_iff, Text.toNat_toLower]
  split <;> omega

theorem isHexDigit_toLower (c : Char) : isHexDigit c.toLower = isHexDigit c := by
  rw [Bool.eq_iff_iff, isHexDigit_iff, isHexDigit_iff, isDigit_iff, isDigit_iff, Text.toNat_toLower]
  split <;> omega

theorem isDigit_toLower (c : Char) : c.toLower.isDigit = c.isDigit := by
  rw [Bool.eq_iff_iff, isDigit_iff, isDigit_iff, Text.toNat_toLower]
  split <;> omega

theorem isBinaryDigit_toLower (c : Char) : isBinaryDigit c.toLower = isBinaryDigit c := by
  rw [Bool.eq_iff_iff, isBinaryDigit_iff, isBinaryDigit_iff, Text.toNat_toLower]
  split <;> omega

theorem digitValue_toLower {c : Char} (h : isHexDigit c = true) :
    Text.digitValue c.toLower = Text.digitValue c := by
  rw [isHexDigit_iff, isDigit_iff] at h
  rw [Text.digitValue_eq, Text.digitValue_eq, Text.toNat_toLower]
  split
  · repeat' split
    all_goals omega
  · rfl

end Table

namespace Table.Row

theorem isHeader_iff {row : Row} :
    row.isHeader = true ↔
      ∃ name, row.cell 0 = .word name ∧ name.toList.map Char.toLower = "command".toList := by
  unfold isHeader
  cases row.cell 0 <;> simp

theorem ofMnemonic?_header {name : String}
    (h : name.toList.map Char.toLower = "command".toList) : Opcode.ofMnemonic? name = none := by
  have hupper : name.toList.map Char.toUpper = "COMMAND".toList :=
    Text.map_toUpper_of_map_toLower h
  rw [Opcode.ofMnemonic?_of_map_toUpper hupper (by decide)]
  rfl

end Table.Row

end RecordMachine
