import Mathlib.Data.List.Forall2
import RecordMachine.Proofs.Codec
import RecordMachine.Proofs.Traversal
import RecordMachine.Table.Instruction
/-!
# The grammar of rows

A row spells an instruction by naming its command and by holding a number that fits for each of the
operands, with nothing in the other columns. What is looked at first decides which fault of a row is
reported.
-/
namespace RecordMachine.Table

def faultOf (f : Operand) : Cell → OperandFault
  | .blank => .missing
  | .number value => .tooWide (toString value) f.width
  | .oversized text => .tooWide text f.width
  | .word text | .malformed text => .notUnsigned text

namespace Row

open Traversal

variable {row : Row} {opcode : Opcode} {f : Operand} {values : List Nat}

/-! ## Cells -/

/-- The cell below a column, if the row reaches that far. The command stands to the left of them. -/
def below? (row : Row) : Column → Option Cell
  | .a => row.cells[1]?
  | .b => row.cells[2]?
  | .c => row.cells[3]?
  | .d => row.cells[4]?
  | .e => row.cells[5]?

def Names (row : Row) (opcode : Opcode) : Prop :=
  ∃ name, row.cells[0]? = some (.word name) ∧ Opcode.ofMnemonic? name = some opcode

/-- Below the column of the operand stands this number, which fits. -/
def Holds (row : Row) (f : Operand) (value : Nat) : Prop :=
  row.below? f.column = some (.number value) ∧ value < 1 <<< min f.width 64

/-- The column is filled although the opcode has no operand there. -/
def FillsUnused (row : Row) (opcode : Opcode) (column : Column) : Prop :=
  (∀ f ∈ opcode.operands, f.column ≠ column) ∧
    ∃ cell, row.below? column = some cell ∧ cell ≠ .blank

theorem cell_eq (row : Row) (index : Nat) : row.cell index = row.cells[index]?.getD .blank :=
  List.getD_eq_getElem?_getD

theorem columnCell_eq (row : Row) (column : Column) :
    row.columnCell column = (row.below? column).getD .blank := by
  cases column <;> exact row.cell_eq _

theorem getD_blank_eq_iff {found : Option Cell} {cell : Cell} (h : cell ≠ .blank) :
    found.getD .blank = cell ↔ found = some cell := by
  cases found with
  | none => simp [h.symm]
  | some other => simp

theorem names_iff :
    row.Names opcode ↔ ∃ name, row.cell 0 = .word name ∧ Opcode.ofMnemonic? name = some opcode := by
  simp only [Names, cell_eq, getD_blank_eq_iff, ne_eq, reduceCtorEq, not_false_eq_true]

theorem holds_iff {value : Nat} :
    row.Holds f value ↔ row.columnCell f.column = .number value ∧ value ≤ f.largest := by
  have hne : Cell.number value ≠ .blank := nofun
  rw [Holds, columnCell_eq, getD_blank_eq_iff hne, Operand.le_largest_iff]

theorem fillsUnused_iff {column : Column} : row.FillsUnused opcode column ↔
    (∀ f ∈ opcode.operands, f.column ≠ column) ∧ row.columnCell column ≠ .blank := by
  rw [FillsUnused, columnCell_eq]
  cases row.below? column with
  | none => simp
  | some cell => simp

theorem Names.unique {other : Opcode} (h : row.Names opcode) (ho : row.Names other) :
    opcode = other := by
  obtain ⟨name, hc, hn⟩ := h
  obtain ⟨name', hc', hn'⟩ := ho
  obtain rfl := Cell.word.inj (Option.some.inj (hc.symm.trans hc'))
  exact Option.some.inj (hn.symm.trans hn')

theorem Holds.unique {m n : Nat} (hm : row.Holds f m) (hn : row.Holds f n) : m = n :=
  Cell.number.inj (Option.some.inj (hm.1.symm.trans hn.1))

theorem opcode_cases (row : Row) :
    (∃ opcode, row.Names opcode ∧ row.opcode = .ok opcode) ∨
      (∀ opcode, ¬row.Names opcode) ∧ ∃ fault, row.opcode = .error fault ∧
        (∀ field cause, fault ≠ .operand field cause) ∧ ∀ cause, fault ≠ .unencodable cause := by
  simp only [names_iff]
  rw [Row.opcode]
  cases hc : row.cell 0 with
  | word name =>
    cases hn : Opcode.ofMnemonic? name with
    | some opcode => exact Or.inl ⟨opcode, ⟨name, rfl, hn⟩, by simp [hn]⟩
    | none => exact Or.inr ⟨by simp [hn], .unknownMnemonic name, by simp [hn], nofun, nofun⟩
  | blank => exact Or.inr ⟨by simp, .missingCommand, rfl, nofun, nofun⟩
  | number value => exact Or.inr ⟨by simp, .notAMnemonic _, rfl, nofun, nofun⟩
  | oversized text => exact Or.inr ⟨by simp, .notAMnemonic _, rfl, nofun, nofun⟩
  | malformed text => exact Or.inr ⟨by simp, .notAMnemonic _, rfl, nofun, nofun⟩

theorem opcode_eq_ok_iff : row.opcode = .ok opcode ↔ row.Names opcode := by
  rcases row.opcode_cases with ⟨found, hn, ho⟩ | ⟨hnone, fault, ho, -⟩
  · rw [ho, Except.ok.injEq]
    exact ⟨fun he => he ▸ hn, hn.unique⟩
  · simp [ho, hnone]

theorem operand_cases (row : Row) (f : Operand) :
    (∃ value, row.Holds f value ∧ row.operand f = .ok value) ∨
      (∀ value, ¬row.Holds f value) ∧
        row.operand f = .error (.operand f.name (faultOf f (row.columnCell f.column))) := by
  simp only [holds_iff]
  rw [operand]
  cases hc : row.columnCell f.column with
  | number value =>
    by_cases hf : value ≤ f.largest
    · exact Or.inl ⟨value, ⟨rfl, hf⟩, by simp [Operand.check_eq_ok_iff.mpr hf]⟩
    · have hlt := Nat.lt_of_not_le hf
      exact Or.inr ⟨by simp [hlt], by simp [Operand.check, hlt, faultOf]⟩
  | blank => exact Or.inr ⟨by simp, rfl⟩
  | word text => exact Or.inr ⟨by simp, rfl⟩
  | oversized text => exact Or.inr ⟨by simp, rfl⟩
  | malformed text => exact Or.inr ⟨by simp, rfl⟩

theorem operand_eq_ok_iff {value : Nat} : row.operand f = .ok value ↔ row.Holds f value := by
  rcases row.operand_cases f with ⟨found, hh, ho⟩ | ⟨hnone, ho⟩
  · rw [ho, Except.ok.injEq]
    exact ⟨fun he => he ▸ hh, hh.unique⟩
  · simp [ho, hnone]

theorem operand_eq_error_iff {fault : RowFault} :
    row.operand f = .error fault ↔ (∀ value, ¬row.Holds f value) ∧
      fault = .operand f.name (faultOf f (row.columnCell f.column)) := by
  rcases row.operand_cases f with ⟨found, hh, ho⟩ | ⟨hnone, ho⟩
  · simp only [ho, reduceCtorEq, false_iff, not_and]
    exact fun hnone => absurd hh (hnone found)
  · rw [ho, Except.error.injEq, eq_comm]
    exact ⟨fun he => ⟨hnone, he⟩, And.right⟩

theorem mapM_operand_eq_ok_iff {operands : List Operand} :
    operands.mapM row.operand = .ok values ↔ List.Forall₂ row.Holds operands values := by
  rw [mapM_eq_ok_iff, ← List.forall₂_eq_eq_eq, List.forall₂_map_left_iff,
    List.forall₂_map_right_iff]
  simp only [operand_eq_ok_iff]

theorem mem_all (column : Column) : column ∈ Column.all := by
  cases column <;> decide

theorem unusedColumn?_eq_none_iff :
    row.unusedColumn? opcode = none ↔ ∀ column, ¬row.FillsUnused opcode column := by
  rw [unusedColumn?, List.find?_eq_none]
  simp [mem_all, fillsUnused_iff, Cell.isBlank]

theorem fillsUnused_of_unusedColumn? {column : Column}
    (h : row.unusedColumn? opcode = some column) : row.FillsUnused opcode column := by
  have hs := List.find?_some h
  simpa [fillsUnused_iff, Cell.isBlank] using hs

/-! ## Rows -/

structure Spells (row : Row) (opcode : Opcode) (values : List Nat) : Prop where
  width : row.cells.length ≤ 6
  command : row.Names opcode
  operands : List.Forall₂ row.Holds opcode.operands values
  unused : ∀ column, ¬row.FillsUnused opcode column

/-- The first operand for which the row holds no number that fits. -/
structure Lacks (row : Row) (opcode : Opcode) (f : Operand) : Prop where
  width : row.cells.length ≤ 6
  command : row.Names opcode
  first : ∃ before after, opcode.operands = before ++ f :: after ∧
    (∀ g ∈ before, ∃ value, row.Holds g value) ∧ ∀ value, ¬row.Holds f value

/-- What a row is read as, in the order in which its faults are looked for. -/
inductive Reading (row : Row) : Except RowFault Instruction → Prop
  | tooLong (h : 6 < row.cells.length) :
      Reading row (.error (.tooManyColumns maxCells row.cells.length))
  | command {fault : RowFault} (hw : row.cells.length ≤ 6)
      (hn : ∀ opcode, ¬row.Names opcode) (hr : ∀ field cause, fault ≠ .operand field cause)
      (he : ∀ cause, fault ≠ .unencodable cause) : Reading row (.error fault)
  | operand {opcode : Opcode} {f : Operand} (h : row.Lacks opcode f) :
      Reading row (.error (.operand f.name (faultOf f (row.columnCell f.column))))
  | unused {opcode : Opcode} {values : List Nat} {column : Column}
      (hw : row.cells.length ≤ 6) (hn : row.Names opcode)
      (hv : List.Forall₂ row.Holds opcode.operands values) (hu : row.FillsUnused opcode column) :
      Reading row (.error (.unusedColumn column opcode (row.columnCell column).text))
  | instruction {i : Instruction} (h : row.Spells i.opcode i.values) : Reading row (.ok i)

theorem fits_of_forall₂ {operands : List Operand} (h : List.Forall₂ row.Holds operands values) :
    Operand.Fits operands values := by
  induction h with
  | nil => trivial
  | cons hv _ ih => exact ⟨(holds_iff.mp hv).2, ih⟩

theorem exists_ofValues (h : List.Forall₂ row.Holds opcode.operands values) :
    ∃ i, Instruction.ofValues opcode values = .ok i ∧ i.opcode = opcode ∧ i.values = values :=
  Instruction.exists_ofValues h.length_eq.symm (fits_of_forall₂ h)

theorem reading_read (row : Row) : row.Reading row.read := by
  rw [read]
  split
  next hlong => exact .tooLong hlong
  next hw =>
    replace hw := Nat.le_of_not_lt hw
    rcases row.opcode_cases with ⟨opcode, hn, ho⟩ | ⟨hn, fault, ho, hr, he⟩
    · cases hv : opcode.operands.mapM row.operand with
      | error fault =>
        obtain ⟨before, f, after, hs, hb, hf⟩ := mapM_eq_error_iff.mp hv
        simp only [operand_eq_ok_iff] at hb
        obtain ⟨hnone, rfl⟩ := operand_eq_error_iff.mp hf
        simp only [ho, hv, bind, Except.bind]
        exact .operand ⟨hw, hn, before, after, hs, hb, hnone⟩
      | ok values =>
        have hholds := mapM_operand_eq_ok_iff.mp hv
        simp only [ho, hv, bind, Except.bind]
        cases hu : row.unusedColumn? opcode with
        | some column => exact .unused hw hn hholds (fillsUnused_of_unusedColumn? hu)
        | none =>
          obtain ⟨i, hi, rfl, rfl⟩ := exists_ofValues hholds
          simp only [hi, Except.mapError]
          exact .instruction ⟨hw, hn, hholds, unusedColumn?_eq_none_iff.mp hu⟩
    · simp only [ho, bind, Except.bind]
      exact .command hw hn hr he

theorem Spells.read (h : row.Spells opcode values) :
    ∃ i, row.read = .ok i ∧ i.opcode = opcode ∧ i.values = values := by
  obtain ⟨i, hi, hio, hiv⟩ := exists_ofValues h.operands
  have hw : ¬maxCells < row.cells.length := Nat.not_lt.mpr h.width
  refine ⟨i, ?_, hio, hiv⟩
  simp only [Row.read, if_neg hw, opcode_eq_ok_iff.mpr h.command,
    mapM_operand_eq_ok_iff.mpr h.operands, unusedColumn?_eq_none_iff.mpr h.unused, hi, bind,
    Except.bind, Except.mapError]

theorem Lacks.mapM_operand (h : row.Lacks opcode f) :
    opcode.operands.mapM row.operand =
      .error (.operand f.name (faultOf f (row.columnCell f.column))) := by
  obtain ⟨before, after, hs, hb, hf⟩ := h.first
  simp only [← operand_eq_ok_iff] at hb
  exact mapM_eq_error_iff.mpr ⟨before, f, after, hs, hb, operand_eq_error_iff.mpr ⟨hf, rfl⟩⟩

theorem Lacks.read (h : row.Lacks opcode f) :
    row.read = .error (.operand f.name (faultOf f (row.columnCell f.column))) := by
  have hw : ¬maxCells < row.cells.length := Nat.not_lt.mpr h.width
  simp only [Row.read, if_neg hw, opcode_eq_ok_iff.mpr h.command, h.mapM_operand, bind,
    Except.bind]

theorem exists_lacks_of_read {field : String} {cause : OperandFault}
    (h : row.read = .error (.operand field cause)) :
    ∃ opcode f, row.Lacks opcode f ∧ f.name = field ∧
      cause = faultOf f (row.columnCell f.column) := by
  have hr := row.reading_read
  rw [h] at hr
  generalize he : RowFault.operand field cause = fault at hr
  cases hr with
  | tooLong hlong => cases he
  | command hw hn hr _ => exact absurd he.symm (hr field cause)
  | operand hl =>
    cases he
    exact ⟨_, _, hl, rfl, rfl⟩
  | unused hw hn hv hu => cases he

theorem Lacks.not_forall₂ (h : row.Lacks opcode f) :
    ¬List.Forall₂ row.Holds opcode.operands values := by
  intro hv
  have hm := h.mapM_operand
  rw [mapM_operand_eq_ok_iff.mpr hv] at hm
  cases hm

theorem instruction_eq_ok_iff {i : Instruction} : row.instruction = .ok i ↔ row.read = .ok i := by
  unfold instruction
  cases row.read with
  | ok found => simp [Except.mapError]
  | error fault => simp [Except.mapError]

theorem instruction_eq_error_iff {error : RowError} :
    row.instruction = .error error ↔ error.row = row.line ∧ row.read = .error error.fault := by
  obtain ⟨number, fault⟩ := error
  unfold instruction
  cases row.read with
  | ok i => simp [Except.mapError]
  | error found => simp [Except.mapError, eq_comm]

/-- Exactly the rows that spell an instruction are accepted. Of the others a row with a bad operand
is refused for the first of them unless it is too long or names no command, whatever stands in its
unused columns, and the syntax is at fault in all that are left. -/
theorem instruction_grammar (row : Row) :
    (∀ opcode values,
      (∃ i, row.instruction = .ok i ∧ i.opcode = opcode ∧ i.values = values) ↔
        row.Spells opcode values) ∧
    (∀ field,
      (∃ line cause, row.instruction = .error ⟨line, .operand field cause⟩) ↔
        ∃ opcode f, row.Lacks opcode f ∧ f.name = field) ∧
    ∀ error, row.instruction = .error error →
      error.row = row.line ∧ (∀ cause, error.fault ≠ .unencodable cause) ∧
        ((∀ field cause, error.fault ≠ .operand field cause) ↔
          6 < row.cells.length ∨ (∀ opcode, ¬row.Names opcode) ∨
            ∃ opcode values column, row.Names opcode ∧
              List.Forall₂ row.Holds opcode.operands values ∧ row.FillsUnused opcode column) := by
  refine ⟨fun opcode values => ⟨fun h => ?_, fun h => ?_⟩, fun field => ⟨fun h => ?_, fun h => ?_⟩,
    fun error h => ?_⟩
  · obtain ⟨i, hi, rfl, rfl⟩ := h
    have hr := row.reading_read
    rw [instruction_eq_ok_iff.mp hi] at hr
    cases hr with
    | instruction h => exact h
  · obtain ⟨i, hi, ho, hv⟩ := h.read
    exact ⟨i, instruction_eq_ok_iff.mpr hi, ho, hv⟩
  · obtain ⟨line, cause, hi⟩ := h
    obtain ⟨opcode, f, hl, hf, -⟩ := exists_lacks_of_read (instruction_eq_error_iff.mp hi).2
    exact ⟨opcode, f, hl, hf⟩
  · obtain ⟨opcode, f, hl, rfl⟩ := h
    exact ⟨row.line, _, instruction_eq_error_iff.mpr ⟨rfl, hl.read⟩⟩
  · obtain ⟨line, fault⟩ := error
    obtain ⟨hline, hread⟩ := instruction_eq_error_iff.mp h
    have hr := row.reading_read
    rw [hread] at hr
    refine ⟨hline, ?_⟩
    cases hr with
    | tooLong hlong => exact ⟨nofun, iff_of_true nofun (Or.inl hlong)⟩
    | command hw hn hr he => exact ⟨he, iff_of_true hr (Or.inr (Or.inl hn))⟩
    | operand hl =>
      refine ⟨nofun, iff_of_false (fun hne => hne _ _ rfl) fun hs => ?_⟩
      rcases hs with hlong | hnone | ⟨other, values, column, hn, hv, -⟩
      · exact absurd hl.width (Nat.not_le.mpr hlong)
      · exact hnone _ hl.command
      · obtain rfl := hn.unique hl.command
        exact hl.not_forall₂ hv
    | unused hw hn hv hu =>
      exact ⟨nofun, iff_of_true nofun (Or.inr (Or.inr ⟨_, _, _, hn, hv, hu⟩))⟩

end Row

end RecordMachine.Table
