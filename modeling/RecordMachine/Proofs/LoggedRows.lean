import RecordMachine.Proofs.Spelling
/-!
# The rows of a log

The log shows an instruction as a listing does: between the number of its line and the bytes of its
record stands its row. A log without its first and its last column is therefore a table of the
program.
-/
namespace RecordMachine

open Table

namespace Instruction

theorem isOperandText_columnDigits (i : Instruction) (column : Column) :
    IsOperandText (i.columnValue? column) (i.columnDigits column) := by
  unfold columnDigits
  cases i.columnValue? column with
  | none => rfl
  | some value =>
    have hlower : ∀ d < 10, (Nat.digitChar d).toLower = Nat.digitChar d := by decide
    refine .decimal ⟨0, ?_⟩
    rw [List.replicate_zero, List.nil_append]
    refine (List.map_congr_left fun c hc => ?_).trans (List.map_id _)
    obtain ⟨d, hd, rfl⟩ := Text.exists_digitChar (by decide) hc
    exact hlower d hd

theorem isRowOf_tableRow (i : Instruction) : IsRowOf i i.tableRow := by
  have hmnemonic : i.opcode.mnemonic.toList.map Char.toUpper = i.opcode.mnemonic.toList := by
    cases i.opcode <;> rfl
  refine ⟨_, _, i.toList_tableRow, .inl hmnemonic, Nat.le_refl _, fun column => ?_⟩
  have hcolumn : (Column.all.map i.columnDigits).getD column.index [] = i.columnDigits column := by
    cases column <;> rfl
  rw [hcolumn]
  exact i.isOperandText_columnDigits column

theorem map_toList_cellTexts (i : Instruction) :
    (i.cellTexts.map String.ofList).map String.toList = i.cellTexts := by
  rw [List.map_map]
  exact (List.map_congr_left fun cs _ => String.toList_ofList).trans (List.map_id _)

theorem tableRow_eq (i : Instruction) :
    i.tableRow = String.intercalate "," (i.cellTexts.map String.ofList) := by
  rw [← String.toList_inj, String.toList_intercalate, i.map_toList_cellTexts, i.toList_tableRow]
  rfl

end Instruction

namespace Program

def table (p : Program) : String := Text.unlines (p.map Instruction.tableRow)

theorem isBody_tableRows (p : Program) : IsBody p (p.map Instruction.tableRow ++ [""]) := by
  induction p with
  | nil => exact .idle (by decide) (by decide) .nil
  | cons i p ih => exact .row i.isRowOf_tableRow ih

theorem isSpelling_table (p : Program) : Assembly.IsSpelling p p.table := by
  have hlines : sourceLines p.table = p.map Instruction.tableRow ++ [""] := by
    apply sourceLines_unlines
    intro text ht
    obtain ⟨i, -, rfl⟩ := List.mem_map.mp ht
    exact i.isLine_tableRow
  exact ⟨p.table, p.table, hlines ▸ .body p.isBody_tableRows, .refl, .inl rfl⟩

end Program

namespace Assembly

theorem record_of_mem_steps {table : String} (h : faults table = []) {s : Step}
    (hs : s ∈ steps table) : s.record = s.instruction.record := by
  obtain ⟨k, hk⟩ := List.mem_iff_getElem?.mp hs
  obtain ⟨row, -, i, -, rfl⟩ := getElem?_steps h hk
  rfl

theorem bytes_eq_stream {source : String} {a : Assembly} (h : ofSource source = .ok a) :
    a.bytes = a.program.stream := by
  obtain ⟨hf, rfl⟩ := ofSource_eq_ok_iff.mp h
  have hbytes := toBytes_ofSteps fun s hs => record_of_mem_steps hf hs
  exact Except.ok.inj (hbytes.symm.trans (Program.toBytes_eq _))

theorem exists_ofSource_table (p : Program) :
    ∃ a, ofSource p.table = .ok a ∧ a.program = p ∧ a.bytes = p.stream := by
  obtain ⟨rows, hrows, hbody⟩ := p.isSpelling_table.exists_rows
  obtain ⟨steps, hsteps, hprogram⟩ := exists_steps hbody
  have hok := ofSource_of_rows hrows hsteps
  refine ⟨_, hok, hprogram, ?_⟩
  rw [bytes_eq_stream hok, ofSteps, hprogram]

end Assembly

namespace Log

/-- The columns of a row of the log: the number of a line, a command with its operands, and bytes. -/
def columns (row : Nat) (i : Instruction) (bytes : List UInt8) : List String :=
  toString row :: i.cellTexts.map String.ofList ++ [Text.hexBytes bytes]

theorem intercalate_columns (row : Nat) (i : Instruction) (bytes : List UInt8) :
    String.intercalate "," (columns row i bytes) =
      toString row ++ "," ++ i.tableRow ++ "," ++ Text.hexBytes bytes := by
  have hcells : i.cellTexts.map String.ofList ≠ [] := List.cons_ne_nil _ _
  rw [columns, String.intercalate_append_of_ne_nil (by simp) (by simp),
    String.intercalate_cons_of_ne_nil hcells, String.intercalate_singleton, i.tableRow_eq]

theorem columnText_ofInstruction (row index : Nat) (i : Instruction) (record : Record)
    (column : Column) :
    (Entry.ofInstruction row index i record).columnText column =
      String.ofList (i.columnDigits column) := by
  have hfind : (i.opcode.operands.zipWith (fun f value => Operand.mk f.name f.column value)
        i.values).find? (·.column == column) =
      ((i.opcode.operands.zip i.values).find? (·.1.column == column)).map fun named =>
        ⟨named.1.name, named.1.column, named.2⟩ := by
    rw [← List.map_uncurry_zip_eq_zipWith, List.find?_map]
    rfl
  rw [Entry.columnText, Entry.ofInstruction, hfind, Instruction.columnDigits,
    Instruction.columnValue?]
  cases (i.opcode.operands.zip i.values).find? (·.1.column == column) with
  | none => rfl
  | some named => exact Nat.toString_eq_ofList_toDigits

theorem csvLine_ofInstruction (row index : Nat) (i : Instruction) (record : Record) :
    (Entry.ofInstruction row index i record).csvLine =
      toString row ++ "," ++ i.tableRow ++ "," ++ Text.hexBytes record.bytes := by
  have hcells : i.opcode.mnemonic ::
        Column.all.map (Entry.ofInstruction row index i record).columnText =
      i.cellTexts.map String.ofList := by
    rw [Instruction.cellTexts, List.map_cons, String.ofList_toList, List.map_map]
    exact congrArg _ (List.map_congr_left fun column _ =>
      columnText_ofInstruction row index i record column)
  rw [← intercalate_columns, columns, ← hcells]
  rfl

/-- A line without its first and its last comma-separated column. -/
def innerColumns (line : String) : String :=
  String.ofList ([','].intercalate ((line.toList.splitOn ',').tail.dropLast))

theorem comma_notMem_columns {row : Nat} {i : Instruction} {bytes : List UInt8} {column : String}
    (h : column ∈ columns row i bytes) : ',' ∉ column.toList := by
  rw [columns, List.mem_append, List.mem_cons, List.mem_singleton] at h
  rcases h with (rfl | h) | rfl
  · rw [Text.toList_toString]
    intro hm
    cases Text.isDigit_of_mem_toDigits hm
  · obtain ⟨cell, hcell, rfl⟩ := List.mem_map.mp h
    rw [String.toList_ofList]
    intro hm
    cases Instruction.isWordChar_of_mem_cellTexts hcell _ hm
  · intro hm
    exact Text.forall_mem_hexBytes (p := (· ≠ ',')) (by decide) (by decide) bytes _ hm rfl

theorem innerColumns_row (row : Nat) (i : Instruction) (bytes : List UInt8) :
    innerColumns (toString row ++ "," ++ i.tableRow ++ "," ++ Text.hexBytes bytes) =
      i.tableRow := by
  have hcomma : ∀ column ∈ (columns row i bytes).map String.toList, ',' ∉ column := by
    intro column hm
    obtain ⟨text, ht, rfl⟩ := List.mem_map.mp hm
    exact comma_notMem_columns ht
  have hsplit : ([','].intercalate ((columns row i bytes).map String.toList)).splitOn ',' =
      (columns row i bytes).map String.toList :=
    List.splitOn_intercalate ',' hcomma (List.cons_ne_nil _ _)
  have hinner : ((columns row i bytes).map String.toList).tail.dropLast = i.cellTexts := by
    rw [columns, List.cons_append, List.map_cons, List.tail_cons, List.map_append,
      List.map_singleton, List.dropLast_concat, i.map_toList_cellTexts]
  have hline : (toString row ++ "," ++ i.tableRow ++ "," ++ Text.hexBytes bytes).toList =
      [','].intercalate ((columns row i bytes).map String.toList) := by
    rw [← intercalate_columns, String.toList_intercalate]
    rfl
  rw [innerColumns, hline, hsplit, hinner, ← i.toList_tableRow, String.ofList_toList]

end Log

namespace Assembly

theorem map_innerColumns_log (steps : List Step) :
    ((ofSteps steps).log.map Log.Entry.csvLine).map Log.innerColumns =
      (ofSteps steps).program.map Instruction.tableRow := by
  apply List.ext_getElem?
  intro k
  rw [List.getElem?_map, List.getElem?_map, getElem?_log_ofSteps, ofSteps, List.getElem?_map,
    List.getElem?_map]
  cases steps[k]? with
  | none => rfl
  | some s =>
    simp only [Option.map_some, Log.csvLine_ofInstruction, Log.innerColumns_row]

/-- Below its header the log has one line for each instruction: the number of the source line, the
row of the instruction as a listing has it, and the bytes of its record. Without the first and the
last column these lines assemble again, to the same program and the same bytes. -/
theorem log_presents_rows {source : String} {a : Assembly} (h : ofSource source = .ok a) :
    ∃ lines again, a.log.csv = Text.unlines ("row,Command,A,B,C,D,E,bytes" :: lines) ∧
      lines.length = a.program.length ∧
      (∀ k line, lines[k]? = some line → ∃ entry i, a.log[k]? = some entry ∧
        a.program[k]? = some i ∧
        line = toString entry.row ++ "," ++ i.tableRow ++ "," ++
          Text.hexBytes ((a.bytes.drop (6 * k)).take 6)) ∧
      ofSource (Text.unlines (lines.map Log.innerColumns)) = .ok again ∧
      again.program = a.program ∧ again.bytes = a.bytes := by
  have hbytes := bytes_eq_stream h
  obtain ⟨again, hagain, hprogram, hstream⟩ := exists_ofSource_table a.program
  obtain ⟨-, rfl⟩ := ofSource_eq_ok_iff.mp h
  refine ⟨_, again, rfl, ?_, ?_, ?_, hprogram, hstream.trans hbytes.symm⟩
  · simp [ofSteps]
  · intro k line hline
    rw [List.getElem?_map, Option.map_eq_some_iff] at hline
    obtain ⟨entry, hentry, rfl⟩ := hline
    rw [getElem?_log_ofSteps, Option.map_eq_some_iff] at hentry
    obtain ⟨s, hs, rfl⟩ := hentry
    refine ⟨Log.Entry.ofInstruction s.row k s.instruction s.record, s.instruction, ?_, ?_, ?_⟩
    · rw [getElem?_log_ofSteps, hs, Option.map_some]
    · simp [ofSteps, hs]
    · have hrecord : ((ofSteps (steps (stripMark source))).bytes.drop (6 * k)).take 6 =
          s.record.bytes :=
        bytes_of_getElem?_steps hs
      rw [Log.csvLine_ofInstruction, hrecord]
      rfl
  · rw [map_innerColumns_log]
    exact hagain

theorem log_presents_rows_two :
    ∃ source a, source = "Command,A,B\nLOAD_CONST,0x5,803 # first\n,,\nmodulo,12,0,6,,\n" ∧
      ofSource source = .ok a ∧
      a.log.csv = "row,Command,A,B,C,D,E,bytes\n2,LOAD_CONST,5,803,,,,06 05 00 00 03 23\n" ++
        "4,MOD,12,0,6,,,0E 00 0C 00 06 00\n" ∧
      ∃ again, ofSource "LOAD_CONST,5,803,,,\nMOD,12,0,6,,\n" = .ok again ∧
        again.program = [.loadConst 5 803, .mod 12 0 6] ∧ again.bytes = a.bytes := by
  let steps := [stepOf ⟨2, []⟩ (.loadConst 5 803), stepOf ⟨4, []⟩ (.mod 12 0 6)]
  have hok : ofSource "Command,A,B\nLOAD_CONST,0x5,803 # first\n,,\nmodulo,12,0,6,,\n" =
      .ok (ofSteps steps) := by
    decide +kernel
  obtain ⟨lines, again, hcsv, hlength, hlines, hagain, hprogram, hbytes⟩ := log_presents_rows hok
  obtain ⟨first, second, rfl⟩ := List.length_eq_two.mp hlength
  obtain ⟨_, _, hentry, hi, hfirst⟩ := hlines 0 first rfl
  cases hentry
  cases hi
  obtain ⟨_, _, hentry, hi, hsecond⟩ := hlines 1 second rfl
  cases hentry
  cases hi
  have hinner : Text.unlines ([first, second].map Log.innerColumns) =
      "LOAD_CONST,5,803,,,\nMOD,12,0,6,,\n" := by
    rw [hfirst, hsecond]
    decide +kernel
  refine ⟨_, _, rfl, hok, ?_, again, hinner ▸ hagain, hprogram, hbytes⟩
  rw [hcsv, hfirst, hsecond]
  decide +kernel

end Assembly

end RecordMachine
