import RecordMachine.Proofs.RowGrammar
import RecordMachine.Proofs.Spacing
/-!
# Rows of instructions

The table row of an instruction is read back as the instruction, with any
blanks and a comment behind it.
-/
namespace RecordMachine

open Table

namespace Instruction

def columnDigits (i : Instruction) (column : Column) : List Char :=
  match i.columnValue? column with
  | some value => Nat.toDigits 10 value
  | none => []

def columnCell (i : Instruction) (column : Column) : Cell :=
  match i.columnValue? column with
  | some value => .number value
  | none => .blank

def cellTexts (i : Instruction) : List (List Char) :=
  i.opcode.mnemonic.toList :: Column.all.map i.columnDigits

def cells (i : Instruction) : List Cell :=
  .word i.opcode.mnemonic :: Column.all.map i.columnCell

theorem toList_tableRow (i : Instruction) : i.tableRow.toList = [','].intercalate i.cellTexts := by
  have hc : (Column.all.map fun column =>
      match i.columnValue? column with
      | some value => toString value
      | none => "").map String.toList = Column.all.map i.columnDigits := by
    rw [List.map_map]
    apply List.map_congr_left
    intro column _
    simp only [Function.comp_apply, columnDigits]
    cases i.columnValue? column with
    | none => rfl
    | some value => exact Text.toList_toString value
  rw [tableRow, String.toList_intercalate, List.map_cons, cellTexts, ← hc]
  rfl

theorem columnValue?_lt {i : Instruction} {column : Column} {value : Nat}
    (h : i.columnValue? column = some value) : value < Text.wordLimit := by
  obtain ⟨⟨f, n⟩, hf, rfl⟩ := Option.map_eq_some_iff.mp h
  exact Nat.lt_of_le_of_lt (i.fits_values.le_largest (List.mem_of_find?_eq_some hf))
    f.largest_lt_wordLimit

theorem isCellText_columnDigits (i : Instruction) (column : Column) :
    IsCellText (i.columnDigits column) := by
  unfold columnDigits
  cases i.columnValue? column with
  | none => exact .nil
  | some value => exact .digits Nat.toDigits_ne_nil fun c hc => Text.isDigit_of_mem_toDigits hc

theorem read_columnDigits (i : Instruction) (column : Column) :
    Cell.read (i.columnDigits column) = i.columnCell column := by
  unfold columnDigits columnCell
  cases h : i.columnValue? column with
  | none => exact Cell.read_nil
  | some value =>
    exact Cell.read_digits Nat.toDigits_ne_nil (fun c hc => Text.isDigit_of_mem_toDigits hc)
      (Text.positional?_toDigits (columnValue?_lt h))

theorem isWord_mnemonic (opcode : Opcode) : isWord opcode.mnemonic.toList = true := by
  cases opcode <;> decide

theorem read_mnemonic (opcode : Opcode) :
    Cell.read opcode.mnemonic.toList = .word opcode.mnemonic := by
  rw [Cell.read_word (isWord_mnemonic opcode), String.ofList_toList]

theorem isCellText_cellTexts (i : Instruction) : ∀ p ∈ i.cellTexts, IsCellText p := by
  intro p hp
  rcases List.mem_cons.mp hp with rfl | hp
  · exact .word (isWord_mnemonic i.opcode)
  · obtain ⟨column, -, rfl⟩ := List.mem_map.mp hp
    exact i.isCellText_columnDigits column

theorem map_read_cellTexts (i : Instruction) : i.cellTexts.map Cell.read = i.cells := by
  rw [cellTexts, List.map_cons, read_mnemonic i.opcode, List.map_map, cells]
  simp only [Function.comp_def, read_columnDigits]

theorem isWordChar_of_mem_cellTexts {i : Instruction} {p : List Char} (hp : p ∈ i.cellTexts) :
    ∀ c ∈ p, isWordChar c = true := by
  rcases List.mem_cons.mp hp with rfl | hp
  · exact isWordChar_of_isWord (isWord_mnemonic i.opcode)
  · obtain ⟨column, -, rfl⟩ := List.mem_map.mp hp
    intro c hc
    unfold columnDigits at hc
    cases hv : i.columnValue? column with
    | none => simp [hv] at hc
    | some value =>
      rw [hv] at hc
      exact isWordChar_iff.mpr (.inr (Text.isDigit_of_mem_toDigits hc))

theorem mem_tableRow {i : Instruction} {c : Char} (h : c ∈ i.tableRow.toList) :
    c = ',' ∨ isWordChar c = true := by
  rw [toList_tableRow] at h
  refine (Text.mem_intercalate h).imp_right ?_
  rintro ⟨p, hp, hc⟩
  exact isWordChar_of_mem_cellTexts hp c hc

theorem isLine_tableRow (i : Instruction) : Text.IsLine i.tableRow := by
  intro hm
  rcases mem_tableRow hm with h | h <;> cases h

theorem readLine_tableRow (i : Instruction) (blanks : Nat) {comment : List Char}
    (h : '\n' ∉ comment) :
    readLine (scan (i.tableRow.toList ++ List.replicate blanks ' ' ++ '#' :: comment)) =
      .cells i.cells := by
  have hb : ∀ c ∈ List.replicate blanks ' ', isSpace c = true := by
    intro c hc
    rw [List.eq_of_mem_replicate hc]
    rfl
  have hline : '\n' ∉ i.tableRow.toList := i.isLine_tableRow
  have hspaces : readLine (scan (i.tableRow.toList ++ List.replicate blanks ' ' ++ [])) =
      readLine (scan (i.tableRow.toList ++ [])) :=
    readLine_spaces_between hline (by simp) hb (.inr (by simp))
  have hp : (Cell.read i.opcode.mnemonic.toList).isBlank = false := by
    rw [read_mnemonic i.opcode]
    rfl
  rw [readLine_comment_behind (by simp [hline]) h]
  simp only [List.append_nil] at hspaces
  rw [hspaces, toList_tableRow, ← map_read_cellTexts]
  exact readLine_intercalate i.isCellText_cellTexts hp

theorem columnCell_cells (i : Instruction) (line : Nat) (column : Column) :
    Row.columnCell ⟨line, i.cells⟩ column = i.columnCell column := by
  cases column <;> rfl

theorem find?_column_of_mem_zip {operands : List Operand} {values : List Nat}
    (hd : operands.Pairwise (·.column ≠ ·.column)) {f : Operand} {n : Nat}
    (h : (f, n) ∈ operands.zip values) :
    (operands.zip values).find? (·.1.column == f.column) = some (f, n) := by
  induction operands generalizing values with
  | nil => cases h
  | cons g operands ih =>
    cases values with
    | nil => cases h
    | cons m values =>
      obtain ⟨hg, hd⟩ := List.pairwise_cons.mp hd
      rw [List.zip_cons_cons] at h ⊢
      rw [List.find?_cons]
      rcases List.mem_cons.mp h with h | h
      · obtain ⟨rfl, rfl⟩ := Prod.mk.inj h
        simp
      · have hne := hg f (List.of_mem_zip h).1
        simp only [beq_eq_false_iff_ne.mpr hne]
        exact ih hd h

theorem columnValue?_of_mem_zip {i : Instruction} {f : Operand} {n : Nat}
    (h : (f, n) ∈ i.opcode.operands.zip i.values) : i.columnValue? f.column = some n := by
  have hd : i.opcode.operands.Pairwise (·.column ≠ ·.column) := by
    cases i.opcode <;> decide
  rw [columnValue?, find?_column_of_mem_zip hd h]
  rfl

theorem columnCell_of_unused {i : Instruction} {column : Column}
    (h : i.opcode.operands.any (·.column == column) = false) : i.columnCell column = .blank := by
  have hf : (i.opcode.operands.zip i.values).find? (·.1.column == column) = none := by
    rw [List.find?_eq_none]
    rintro ⟨f, n⟩ hm
    exact List.any_eq_false.mp h f (List.of_mem_zip hm).1
  rw [columnCell, columnValue?, hf]
  rfl

theorem read_of_columns {row : Row} {i : Instruction} (hw : row.cells.length ≤ 6)
    (ho : row.opcode = .ok i.opcode) (hc : ∀ column, row.columnCell column = i.columnCell column) :
    row.read = .ok i := by
  have hv : List.Forall₂ row.Holds i.opcode.operands i.values := by
    refine List.forall₂_iff_zip.mpr ⟨i.length_values.symm, fun hm => Row.holds_iff.mpr ⟨?_, ?_⟩⟩
    · rw [hc, columnCell, columnValue?_of_mem_zip hm]
    · exact i.fits_values.le_largest hm
  have hu : ∀ column, ¬row.FillsUnused i.opcode column := by
    intro column hf
    obtain ⟨hunused, hfilled⟩ := Row.fillsUnused_iff.mp hf
    refine hfilled ((hc column).trans (columnCell_of_unused ?_))
    simpa using hunused
  obtain ⟨found, hr, hfo, hfv⟩ := Row.Spells.read ⟨hw, Row.opcode_eq_ok_iff.mp ho, hv, hu⟩
  rw [hr, eq_of_values_eq hfo hfv]

theorem opcode_cells (i : Instruction) (line : Nat) :
    Row.opcode ⟨line, i.cells⟩ = .ok i.opcode := by
  have hm : Opcode.ofMnemonic? i.opcode.mnemonic = some i.opcode := by
    cases i.opcode <;> rfl
  have hc : Row.cell ⟨line, i.cells⟩ 0 = .word i.opcode.mnemonic := rfl
  rw [Row.opcode, hc]
  simp only [hm]

theorem read_cells (i : Instruction) (line : Nat) : Row.read ⟨line, i.cells⟩ = .ok i :=
  read_of_columns (Nat.le_refl _) (i.opcode_cells line) (i.columnCell_cells line)

end Instruction

end RecordMachine
