import RecordMachine.Proofs.BadLines
import RecordMachine.Proofs.LetterCase
import RecordMachine.Proofs.Stream
/-!
# Traceability of an assembly

A successful assembly has one step for each row below the header. Its program, its stream and its
log tell of the same steps, and the line of a step assembles alone to the step's instruction.
-/
namespace RecordMachine

open Table

namespace Table

theorem Row.isHeader_of_read {row : Row} {i : Instruction} (h : row.read = .ok i) :
    row.isHeader = false := by
  refine Bool.eq_false_iff.mpr fun hh => ?_
  obtain ⟨name, hcell, hname⟩ := Row.isHeader_iff.mp hh
  have hop : row.opcode = .error (.unknownMnemonic name) := by
    rw [Row.opcode, hcell]
    simp only [Row.ofMnemonic?_header hname]
  unfold Row.read at h
  split at h
  · cases h
  · simp [hop, bind, Except.bind] at h

end Table

namespace Assembly

def stepOf (row : Row) (i : Instruction) : Step := ⟨row.line, i, i.record⟩

theorem assembleRow_eq_ok_iff {row : Row} {s : Step} :
    assembleRow row = .ok s ↔ ∃ i, row.read = .ok i ∧ s = stepOf row i := by
  rw [assembleRow_eq, Row.instruction]
  cases row.read with
  | error fault => simp [Except.map, Except.mapError]
  | ok i => simp [Except.map, Except.mapError, stepOf, eq_comm]

theorem eq_map_ok_of_separate {results : List (Except RowError Step)}
    (h : (separate results).2 = []) : results = (separate results).1.map .ok := by
  induction results with
  | nil => rfl
  | cons result results ih =>
    cases result with
    | error e => simp [separate] at h
    | ok s =>
      have hrest := ih h
      simp only [separate, List.map_cons, ← hrest]

theorem map_assembleRow_body {table : String} (h : faults table = []) :
    (body (readRows table).1).map assembleRow = (steps table).map .ok := by
  have hrows := (List.append_eq_nil_iff.mp h).2
  rw [← separate_map_assembleRow] at hrows
  exact eq_map_ok_of_separate hrows

theorem getElem?_steps {table : String} (h : faults table = []) {k : Nat} {s : Step}
    (hs : (steps table)[k]? = some s) :
    ∃ row ∈ body (readRows table).1, ∃ i, row.read = .ok i ∧ s = stepOf row i := by
  have hk := congrArg (·[k]?) (map_assembleRow_body h)
  simp only [List.getElem?_map, hs, Option.map_some, Option.map_eq_some_iff] at hk
  obtain ⟨row, hrow, hok⟩ := hk
  exact ⟨row, List.mem_of_getElem? hrow, assembleRow_eq_ok_iff.mp hok⟩

theorem map_row_steps {table : String} (h : faults table = []) :
    (steps table).map Step.row = (body (readRows table).1).map Row.line := by
  apply List.ext_getElem?
  intro k
  have hk := congrArg (·[k]?) (map_assembleRow_body h)
  simp only [List.getElem?_map] at hk ⊢
  cases hrow : (body (readRows table).1)[k]? with
  | none =>
    rw [hrow, Option.map_none, eq_comm, Option.map_eq_none_iff] at hk
    rw [hk]
    rfl
  | some row =>
    rw [hrow, Option.map_some, eq_comm, Option.map_eq_some_iff] at hk
    obtain ⟨s, hs, hok⟩ := hk
    obtain ⟨i, -, rfl⟩ := assembleRow_eq_ok_iff.mp hok.symm
    rw [hs]
    rfl

theorem ofSource_eq_ok_iff {source : String} {a : Assembly} :
    ofSource source = .ok a ↔
      faults (stripMark source) = [] ∧ a = ofSteps (steps (stripMark source)) := by
  rw [ofSource_eq]
  split
  next h => simp [h, eq_comm]
  next h => simp [h]

theorem separate_map_ok (steps : List Step) : separate (steps.map .ok) = (steps, []) := by
  induction steps with
  | nil => rfl
  | cons s steps ih => rw [List.map_cons, separate, ih]

theorem ofSource_of_rows {source : String} {rows : List Row} {steps : List Step}
    (hr : readRows (stripMark source) = (rows, []))
    (hs : (body rows).map assembleRow = steps.map .ok) : ofSource source = .ok (ofSteps steps) := by
  simp only [ofSource, hr, hs, separate_map_ok, List.append_nil]

theorem stripMark_of_strays_nil {source : String} (h : (readRows source).2 = []) :
    stripMark source = source := by
  unfold stripMark
  split
  next rest hs =>
    have hscan : scan source.toList = ⟨.stray, ['\uFEFF']⟩ :: scan rest := by
      rw [hs, scan_cons]
      rfl
    obtain ⟨line, lines, hsplit⟩ :=
      List.exists_cons_of_ne_nil (List.splitOnP_ne_nil (·.kind == .newline) (scan rest))
    have hlines : ∃ later, readLines source = (1, .stray "\uFEFF") :: later := by
      rw [readLines, hscan, List.splitOnP_cons_eq_if_modifyHead, if_neg (by decide), hsplit,
        List.modifyHead_cons, List.zipIdx_cons, List.map_cons]
      exact ⟨_, rfl⟩
    obtain ⟨later, hlater⟩ := hlines
    rw [readRows_eq, hlater] at h
    simp [strayOf?] at h
  next => rfl

theorem ofSource_line {text : String} (hl : Text.IsLine text) {cells : List Cell} {number : Nat}
    {i : Instruction} (hr : readLine (scan text.toList) = .cells cells)
    (hi : Row.read ⟨number, cells⟩ = .ok i) : ofSource text = .ok (ofSteps [⟨1, i, i.record⟩]) := by
  have hrows : readRows text = ([⟨1, cells⟩], []) := (readRows_eq_row_iff hl).mpr hr
  have hmark : stripMark text = text := stripMark_of_strays_nil (by rw [hrows])
  have hread : Row.read ⟨1, cells⟩ = .ok i := (Row.read_line cells 1 number).trans hi
  have hbody : body [⟨1, cells⟩] = [⟨1, cells⟩] := by
    simp [body, Row.isHeader_of_read hread]
  have hstep : assembleRow ⟨1, cells⟩ = .ok ⟨1, i, i.record⟩ :=
    assembleRow_eq_ok_iff.mpr ⟨i, hread, rfl⟩
  apply ofSource_of_rows (hmark.symm ▸ hrows)
  simp [hbody, hstep]

theorem row_ofSteps (steps : List Step) :
    (ofSteps steps).log.map Log.Entry.row = steps.map Step.row := by
  rw [ofSteps, List.map_map]
  generalize 0 = n
  induction steps generalizing n with
  | nil => rfl
  | cons s steps ih =>
    rw [List.zipIdx_cons, List.map_cons, List.map_cons, ih]
    rfl

theorem getElem?_log_ofSteps (steps : List Step) (k : Nat) :
    (ofSteps steps).log[k]? =
      steps[k]?.map fun s => Log.Entry.ofInstruction s.row k s.instruction s.record := by
  simp only [ofSteps, List.getElem?_map, List.getElem?_zipIdx, Option.map_map, Nat.zero_add]
  rfl

theorem bytes_ofSteps (steps : List Step) :
    (ofSteps steps).bytes = (steps.map Step.record).flatMap Record.bytes := by
  rw [ofSteps, List.flatMap_map]

theorem bytes_of_getElem?_steps {steps : List Step} {k : Nat} {s : Step} (h : steps[k]? = some s) :
    ((ofSteps steps).bytes.drop (Record.size * k)).take Record.size = s.record.bytes := by
  obtain ⟨hk, hget⟩ := List.getElem?_eq_some_iff.mp h
  have hsteps : steps = steps.take k ++ s :: steps.drop (k + 1) := by
    rw [← hget, List.getElem_cons_drop, List.take_append_drop]
  have hlen : (((steps.take k).map Step.record).flatMap Record.bytes).length = Record.size * k := by
    rw [Record.length_flatMap_bytes, List.length_map, List.length_take,
      Nat.min_eq_left (Nat.le_of_lt hk), Nat.mul_comm]
  have hbytes : (ofSteps steps).bytes = ((steps.take k).map Step.record).flatMap Record.bytes ++
      (s.record.bytes ++ ((steps.drop (k + 1)).map Step.record).flatMap Record.bytes) := by
    have hsplit := congrArg (fun steps => (steps.map Step.record).flatMap Record.bytes) hsteps
    rw [bytes_ofSteps]
    simpa using hsplit
  rw [hbytes, ← hlen, List.drop_left, ← Record.length_bytes s.record, List.take_left]

theorem toBytes_ofSteps {steps : List Step} (h : ∀ s ∈ steps, s.record = s.instruction.record) :
    (ofSteps steps).program.toBytes = .ok (ofSteps steps).bytes := by
  have hrecords : steps.map Step.record = (steps.map Step.instruction).map Instruction.record := by
    rw [List.map_map]
    exact List.map_congr_left h
  rw [Program.toBytes_eq, Program.stream, bytes_ofSteps, hrecords]
  rfl

end Assembly

namespace Log.Entry

theorem map_operands_ofInstruction (row index : Nat) (i : Instruction) (record : Record) :
    (ofInstruction row index i record).operands.map (fun o => (o.name, o.value)) = i.namedValues ∧
      (ofInstruction row index i record).operands.map (·.column) =
        i.opcode.operands.map (·.column) := by
  cases i <;> exact ⟨rfl, rfl⟩

end Log.Entry

namespace Assembly

/-- The parts of a successful assembly tell of the same instructions. The stream is that of the
program, and the log has one entry for each instruction, by ascending lines. The entry holds the
instruction's index, operands and record, and the line that it names assembles alone to the
program of just this instruction. -/
theorem ofSource_traceable {source : String} {a : Assembly} (h : ofSource source = .ok a) :
    a.program.toBytes = .ok a.bytes ∧ a.log.length = a.program.length ∧
      (a.log.map Log.Entry.row).Pairwise (· < ·) ∧
      ∀ k entry, a.log[k]? = some entry → ∃ i, a.program[k]? = some i ∧
        entry.index = k ∧ i.encode = .ok entry.record ∧
        (a.bytes.drop (6 * k)).take 6 = entry.record.bytes ∧
        entry.hex = Text.hexBytes entry.record.bytes ∧
        entry.mnemonic = i.opcode.mnemonic ∧
        entry.operands.map (fun o => (o.name, o.value)) = i.namedValues ∧
        entry.operands.map (·.column) = i.opcode.operands.map (·.column) ∧
        ∃ text alone, IsLineOf (stripMark source) entry.row text ∧ ofSource text = .ok alone ∧
          alone.program = [i] := by
  obtain ⟨hf, rfl⟩ := ofSource_eq_ok_iff.mp h
  refine ⟨?_, ?_, ?_, ?_⟩
  · apply toBytes_ofSteps
    intro s hs
    obtain ⟨k, hk⟩ := List.mem_iff_getElem?.mp hs
    obtain ⟨row, -, i, -, rfl⟩ := getElem?_steps hf hk
    rfl
  · simp [ofSteps]
  · rw [row_ofSteps, map_row_steps hf]
    exact List.pairwise_map.mpr ((pairwise_rows _).sublist (body_sublist _))
  · intro k entry hentry
    rw [getElem?_log_ofSteps, Option.map_eq_some_iff] at hentry
    obtain ⟨s, hs, rfl⟩ := hentry
    obtain ⟨row, hrow, i, hi, rfl⟩ := getElem?_steps hf hs
    obtain ⟨text, htext, hcells⟩ := mem_rows_iff.mp ((body_sublist _).mem hrow)
    have hprogram : (ofSteps (steps (stripMark source))).program[k]? = some i := by
      simp [ofSteps, hs, stepOf]
    have hoperands := Log.Entry.map_operands_ofInstruction row.line k i i.record
    have halone := ofSource_line htext.1 hcells hi
    exact ⟨i, hprogram, rfl, i.encode_eq, bytes_of_getElem?_steps hs, rfl, rfl, hoperands.1,
      hoperands.2, text, _, htext, halone, rfl⟩

theorem ofSource_traceable_fifth_line :
    ∃ source a, source = "\uFEFFCommand,A,B\n\nLOAD_CONST,0x5,803 # first\n,,\nmodulo,12,0,6,,\n" ∧
      ofSource source = .ok a ∧ a.log.map Log.Entry.row = [3, 5] ∧
      (a.bytes.drop 6).take 6 = [0x0E, 0, 12, 0, 6, 0] ∧
      ∃ text alone, IsLineOf (stripMark source) 5 text ∧ ofSource text = .ok alone ∧
        alone.program = [.mod 12 0 6] := by
  have hok : ofSource "\uFEFFCommand,A,B\n\nLOAD_CONST,0x5,803 # first\n,,\nmodulo,12,0,6,,\n" =
      .ok (ofSteps [stepOf ⟨3, []⟩ (.loadConst 5 803), stepOf ⟨5, []⟩ (.mod 12 0 6)]) := by
    decide +kernel
  obtain ⟨-, -, -, hentries⟩ := ofSource_traceable hok
  obtain ⟨i, hi, -, -, hbytes, -, -, -, -, text, alone, htext, halone, hprogram⟩ :=
    hentries 1 _ rfl
  obtain rfl : Instruction.mod 12 0 6 = i := Option.some.inj hi
  exact ⟨_, _, rfl, hok, rfl, hbytes.trans (by decide), text, alone, htext, halone, hprogram⟩

end Assembly

end RecordMachine
