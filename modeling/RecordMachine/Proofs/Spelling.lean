import Mathlib.Data.List.GetD
import RecordMachine.Proofs.Header
import RecordMachine.Proofs.TableRow
/-!
# Spellings of a program

A program can be written in many ways: commands in any letter case, operands in any base, and lines
that say nothing in any place. Each of them assembles to the program.
-/
namespace RecordMachine

open Table

namespace Text

/-- The digits of a number, as letters of either case and with any number of zeros in front. -/
def IsDigits (base n : Nat) (digits : List Char) : Prop :=
  ∃ zeros, digits.map Char.toLower = List.replicate zeros '0' ++ Nat.toDigits base n

variable {base n : Nat} {digits : List Char}

theorem IsDigits.ne_nil (h : IsDigits base n digits) : digits ≠ [] := by
  obtain ⟨zeros, hz⟩ := h
  intro hnil
  rw [hnil, List.map_nil, eq_comm, List.append_eq_nil_iff] at hz
  exact Nat.toDigits_ne_nil hz.2

theorem IsDigits.forall_mem (h : IsDigits base n digits) (hb : 1 < base) {p : Char → Bool}
    (hp : ∀ d < base, p (Nat.digitChar d) = true) (hl : ∀ c, p c.toLower = p c) :
    ∀ c ∈ digits, p c = true := by
  obtain ⟨zeros, hz⟩ := h
  intro c hc
  have hmem : c.toLower ∈ List.replicate zeros '0' ++ Nat.toDigits base n :=
    hz ▸ List.mem_map_of_mem hc
  rw [← hl]
  rcases List.mem_append.mp hmem with hmem | hmem
  · rw [List.eq_of_mem_replicate hmem]
    exact hp 0 (by omega)
  · obtain ⟨d, hd, hchar⟩ := exists_digitChar hb hmem
    rw [hchar]
    exact hp d hd

theorem IsDigits.positional_eq (h : IsDigits base n digits) (hb : 1 < base) (hs : base ≤ 16) :
    positional base digits = n := by
  have hdigit : ∀ d < 16, isHexDigit (Nat.digitChar d) = true := by decide
  have hhex : ∀ c ∈ digits, isHexDigit c = true :=
    h.forall_mem hb (fun d hd => hdigit d (by omega)) isHexDigit_toLower
  obtain ⟨zeros, hz⟩ := h
  have hvalues : digits.map digitValue = (digits.map Char.toLower).map digitValue := by
    rw [List.map_map]
    exact List.map_congr_left fun c hc => (digitValue_toLower (hhex c hc)).symm
  rw [positional_congr hvalues, hz, positional_zeros_append, positional_toDigits hb hs]

theorem IsDigits.positional?_eq (h : IsDigits base n digits) (hb : 1 < base) (hs : base ≤ 16)
    (hn : n < wordLimit) : positional? base digits = some n := by
  rw [Text.positional?_eq (by omega), h.positional_eq hb hs, if_pos hn]

end Text

namespace Table

/-- A literal of the number: decimal digits, or hexadecimal or binary ones behind their prefix. -/
inductive IsNumeral (n : Nat) : List Char → Prop
  | decimal {digits : List Char} (hd : Text.IsDigits 10 n digits) : IsNumeral n digits
  | hex {letter : Char} {digits : List Char} (hl : letter = 'x' ∨ letter = 'X')
      (hd : Text.IsDigits 16 n digits) : IsNumeral n ('0' :: letter :: digits)
  | binary {letter : Char} {digits : List Char} (hl : letter = 'b' ∨ letter = 'B')
      (hd : Text.IsDigits 2 n digits) : IsNumeral n ('0' :: letter :: digits)

theorem IsNumeral.exists_scan {n : Nat} {cs : List Char} (h : IsNumeral n cs)
    (hn : n < Text.wordLimit) :
    ∃ kind, scan cs = [⟨kind, cs⟩] ∧ Lexeme.number? ⟨kind, cs⟩ = some n := by
  cases h with
  | decimal hd =>
    have hall := hd.forall_mem (by decide) (by decide) isDigit_toLower
    exact ⟨.decimal, scan_digits hd.ne_nil hall, hd.positional?_eq (by decide) (by decide) hn⟩
  | hex hl hd =>
    have hall := hd.forall_mem (by decide) (by decide) isHexDigit_toLower
    exact ⟨.hex, scan_hex hl hd.ne_nil hall, hd.positional?_eq (by decide) (by decide) hn⟩
  | binary hl hd =>
    have hall := hd.forall_mem (by decide) (by decide) isBinaryDigit_toLower
    exact ⟨.binary, scan_binary hl hd.ne_nil hall, hd.positional?_eq (by decide) (by decide) hn⟩

theorem IsNumeral.isWordChar {n : Nat} {cs : List Char} (h : IsNumeral n cs) :
    ∀ c ∈ cs, isWordChar c = true := by
  cases h with
  | decimal hd => exact hd.forall_mem (by decide) (by decide) isWordChar_toLower
  | @hex letter digits hl hd | @binary letter digits hl hd =>
    have hall := hd.forall_mem (by decide) (by decide) isWordChar_toLower
    have hletter : Table.isWordChar letter = true := by rcases hl with rfl | rfl <;> decide
    exact List.forall_mem_cons.mpr ⟨by decide, List.forall_mem_cons.mpr ⟨hletter, hall⟩⟩

def IsOperandText : Option Nat → List Char → Prop
  | some n, cs => IsNumeral n cs
  | none, cs => cs = []

/-- A way to write the command: in any letter case, with a second name for the remainder. -/
def IsMnemonic (opcode : Opcode) (name : List Char) : Prop :=
  name.map Char.toUpper = opcode.mnemonic.toList ∨
    opcode = .mod ∧ name.map Char.toUpper = "MODULO".toList

theorem isWord_of_map_toUpper {name upper : List Char} (h : name.map Char.toUpper = upper)
    (hne : upper ≠ []) (hu : upper.all isWordStart = true) : isWord name = true := by
  have hname : ∀ c ∈ name, isWordStart c = true := by
    intro c hc
    rw [← isWordStart_toUpper]
    exact List.all_eq_true.mp hu _ (h ▸ List.mem_map_of_mem hc)
  cases name with
  | nil => exact absurd h.symm hne
  | cons c name =>
    obtain ⟨hc, hrest⟩ := List.forall_mem_cons.mp hname
    rw [isWord, hc, Bool.true_and, List.all_eq_true]
    exact fun d hd => isWordChar_iff.mpr (.inl (hrest d hd))

theorem IsMnemonic.isWord {opcode : Opcode} {name : List Char} (h : IsMnemonic opcode name) :
    isWord name = true := by
  rcases h with h | ⟨-, h⟩
  · exact isWord_of_map_toUpper h (by cases opcode <;> decide) (by cases opcode <;> decide)
  · exact isWord_of_map_toUpper h (by decide) (by decide)

theorem IsMnemonic.ofMnemonic? {opcode : Opcode} {name : List Char} (h : IsMnemonic opcode name) :
    Opcode.ofMnemonic? (String.ofList name) = some opcode := by
  rcases h with h | ⟨rfl, h⟩
  · have hname : (String.ofList name).toList.map Char.toUpper = opcode.mnemonic.toList := by
      rw [String.toList_ofList, h]
    rw [Opcode.ofMnemonic?_of_map_toUpper hname (by cases opcode <;> decide)]
    cases opcode <;> rfl
  · have hname : (String.ofList name).toList.map Char.toUpper = "MODULO".toList := by
      rw [String.toList_ofList, h]
    rw [Opcode.ofMnemonic?_of_map_toUpper hname (by decide)]
    rfl

/-- A line with the row of the instruction: its command and each operand in the operand's column,
and nothing in the other columns, of which the last ones may be left out. -/
def IsRowOf (i : Instruction) (line : String) : Prop :=
  ∃ name cells, line.toList = [','].intercalate (name :: cells) ∧ IsMnemonic i.opcode name ∧
    cells.length ≤ Column.all.length ∧
    ∀ column : Column, IsOperandText (i.columnValue? column) (cells.getD column.index [])

def IsHeader (line : String) : Prop :=
  ∃ name rest, line.toList = name ++ rest ∧ name.map Char.toLower = "command".toList ∧
    (∀ c ∈ rest.head?, c = ',') ∧ ¬ HoldsStray line

/-- The lines of a program: one row for each instruction, and lines that say nothing. -/
inductive IsBody : Program → List String → Prop
  | nil : IsBody [] []
  | idle {p : Program} {line : String} {lines : List String} (hl : Text.IsLine line)
      (hi : ¬ IsSignificant line) (h : IsBody p lines) : IsBody p (line :: lines)
  | row {i : Instruction} {p : Program} {line : String} {lines : List String}
      (hr : IsRowOf i line) (h : IsBody p lines) : IsBody (i :: p) (line :: lines)

inductive IsTable (p : Program) : List String → Prop
  | body {lines : List String} (h : IsBody p lines) : IsTable p lines
  | header {line : String} {lines : List String} (hh : IsHeader line) (h : IsBody p lines) :
      IsTable p (line :: lines)
  | idle {line : String} {lines : List String} (hl : Text.IsLine line)
      (hi : ¬ IsSignificant line) (h : IsTable p lines) : IsTable p (line :: lines)

theorem isCellText_of_isOperandText {i : Instruction} {column : Column} {cs : List Char}
    (h : IsOperandText (i.columnValue? column) cs) :
    IsCellText cs ∧ Cell.read cs = i.columnCell column := by
  unfold Instruction.columnCell
  cases hv : i.columnValue? column with
  | none =>
    rw [hv] at h
    obtain rfl : cs = [] := h
    exact ⟨.nil, Cell.read_nil⟩
  | some n =>
    rw [hv] at h
    obtain ⟨kind, hs, hn⟩ := IsNumeral.exists_scan h (Instruction.columnValue?_lt hv)
    have hcomma : kind ≠ .comma := by
      rintro rfl
      cases hn
    have hstray : kind ≠ .stray := by
      rintro rfl
      cases hn
    exact ⟨.of_scan hs hcomma hstray (IsNumeral.isWordChar h), Cell.read_number hs hn⟩

theorem exists_column {k : Nat} (h : k < Column.all.length) : ∃ column : Column, column.index = k :=
  ⟨Column.all[k], by revert k; decide⟩

theorem IsRowOf.exists_cells {i : Instruction} {line : String} (h : IsRowOf i line) :
    ∃ cells, readLine (scan line.toList) = .cells cells ∧
      ∀ number, Row.read ⟨number, cells⟩ = .ok i := by
  obtain ⟨name, cells, hline, hname, hlength, hcells⟩ := h
  have hread : Cell.read name = .word (String.ofList name) := Cell.read_word hname.isWord
  have hall : ∀ q ∈ name :: cells, IsCellText q := by
    intro q hq
    rcases List.mem_cons.mp hq with rfl | hq
    · exact .word hname.isWord
    · obtain ⟨k, hk, rfl⟩ := List.mem_iff_getElem.mp hq
      obtain ⟨column, rfl⟩ := exists_column (Nat.lt_of_lt_of_le hk hlength)
      have hcell := hcells column
      rw [List.getD_eq_getElem _ _ hk] at hcell
      exact (isCellText_of_isOperandText hcell).1
  refine ⟨(name :: cells).map Cell.read, ?_, fun number => ?_⟩
  · have hblank : (Cell.read name).isBlank = false := by
      rw [hread]
      rfl
    rw [hline, readLine_intercalate hall hblank]
  · apply Instruction.read_of_columns
    · rw [List.length_map, List.length_cons]
      exact Nat.succ_le_succ hlength
    · rw [Row.opcode, Row.cell, List.map_cons, List.getD_cons_zero, hread]
      simp only [hname.ofMnemonic?]
    · intro column
      have hcell := (isCellText_of_isOperandText (hcells column)).2
      rw [Row.columnCell, Row.cell, List.map_cons, Nat.add_comm, List.getD_cons_succ,
        ← Cell.read_nil, List.getD_map, hcell]

theorem exists_cells_cons {p rest : List Char} (hp : IsCellText p)
    (hb : (Cell.read p).isBlank = false) (hr : ∀ c ∈ rest.head?, c = ',')
    (hs : (scan (p ++ rest)).find? (·.kind == .stray) = none) :
    ∃ cells, readLine (scan (p ++ rest)) = .cells (Cell.read p :: cells) := by
  have hsplit : ∃ parts, (scan (p ++ rest)).splitOnP (·.kind == .comma) = scan p :: parts := by
    cases rest with
    | nil =>
      rw [List.append_nil, List.splitOnP_eq_singleton hp.noComma]
      exact ⟨[], rfl⟩
    | cons c more =>
      obtain rfl := hr c rfl
      rw [scan_append (by decide) (fun h => by cases h) (fun _ => hp.noComment), scan_comma,
        List.splitOnP_append_cons_of_forall_mem hp.noComma _ rfl]
      exact ⟨_, rfl⟩
  obtain ⟨parts, hparts⟩ := hsplit
  refine ⟨parts.map Cell.ofLexemes, ?_⟩
  have hfirst : Cell.ofLexemes (scan p) = Cell.read p := rfl
  simp [readLine, hs, hparts, hfirst, hb]

theorem IsHeader.exists_cells {line : String} (h : IsHeader line) :
    ∃ cells, readLine (scan line.toList) = .cells cells ∧
      ∀ number, Row.isHeader ⟨number, cells⟩ = true := by
  obtain ⟨name, rest, hline, hname, hrest, hstray⟩ := h
  have hupper : name.map Char.toUpper = "COMMAND".toList := Text.map_toUpper_of_map_toLower hname
  have hword : isWord name = true := isWord_of_map_toUpper hupper (by decide) (by decide)
  have hread : Cell.read name = .word (String.ofList name) := Cell.read_word hword
  have hblank : (Cell.read name).isBlank = false := by
    rw [hread]
    rfl
  have hnone : (scan (name ++ rest)).find? (·.kind == .stray) = none := by
    rw [← hline, List.find?_eq_none]
    exact fun l hl hk => hstray ⟨l, hl, beq_iff_eq.mp hk⟩
  obtain ⟨cells, hcells⟩ := exists_cells_cons (.word hword) hblank hrest hnone
  rw [hread] at hcells
  refine ⟨.word (String.ofList name) :: cells, hline ▸ hcells, fun number => ?_⟩
  refine Row.isHeader_iff.mpr ⟨String.ofList name, rfl, ?_⟩
  rw [String.toList_ofList, hname]

def readingsBelow (above : Nat) (lines : List String) : List (Nat × LineReading) :=
  (lines.zipIdx above).map fun (text, index) => (index + 1, readLine (scan text.toList))

theorem readingsBelow_cons (above : Nat) (line : String) (lines : List String) :
    readingsBelow above (line :: lines) =
      (above + 1, readLine (scan line.toList)) :: readingsBelow (above + 1) lines := by
  rw [readingsBelow, List.zipIdx_cons, List.map_cons, readingsBelow]

theorem IsBody.map_read {p : Program} {lines : List String} (h : IsBody p lines) (above : Nat) :
    (readingsBelow above lines).filterMap strayOf? = [] ∧
      ((readingsBelow above lines).filterMap rowOf?).map Row.read = p.map .ok := by
  induction h generalizing above with
  | nil => exact ⟨rfl, rfl⟩
  | idle hl hi _ ih =>
    rw [readingsBelow_cons, (readLine_scan_eq_blank_iff hl).mpr hi]
    exact ih (above + 1)
  | row hr _ ih =>
    obtain ⟨cells, hcells, hread⟩ := hr.exists_cells
    obtain ⟨hstrays, hrows⟩ := ih (above + 1)
    rw [readingsBelow_cons, hcells]
    exact ⟨hstrays, by simp [rowOf?, hread, hrows]⟩

end Table

namespace Assembly

theorem body_of_map_read {p : Program} {rows : List Row} (h : rows.map Row.read = p.map .ok) :
    body rows = rows := by
  cases rows with
  | nil => rfl
  | cons row rows =>
    cases p with
    | nil => cases h
    | cons i p =>
      -- Only a header is dropped, and the first row is an instruction.
      have hrow := Row.isHeader_of_read (List.cons.inj h).1
      simp [body, hrow]

theorem map_read_body {p : Program} {lines : List String} (h : IsTable p lines) (above : Nat) :
    (readingsBelow above lines).filterMap strayOf? = [] ∧
      (body ((readingsBelow above lines).filterMap rowOf?)).map Row.read = p.map .ok := by
  induction h generalizing above with
  | body h =>
    obtain ⟨hstrays, hrows⟩ := h.map_read above
    rw [body_of_map_read hrows]
    exact ⟨hstrays, hrows⟩
  | header hh h =>
    obtain ⟨cells, hcells, hheader⟩ := hh.exists_cells
    obtain ⟨hstrays, hrows⟩ := h.map_read (above + 1)
    rw [readingsBelow_cons, hcells]
    exact ⟨hstrays, by simp [rowOf?, body, hheader, hrows]⟩
  | idle hl hi _ ih =>
    rw [readingsBelow_cons, (readLine_scan_eq_blank_iff hl).mpr hi]
    exact ih (above + 1)

theorem exists_steps {p : Program} {rows : List Row} (h : rows.map Row.read = p.map .ok) :
    ∃ steps : List Step, rows.map assembleRow = steps.map .ok ∧
      steps.map Step.instruction = p := by
  induction rows generalizing p with
  | nil =>
    obtain rfl := List.map_eq_nil_iff.mp h.symm
    exact ⟨[], rfl, rfl⟩
  | cons row rows ih =>
    cases p with
    | nil => cases h
    | cons i p =>
      obtain ⟨hrow, hrows⟩ := List.cons.inj h
      obtain ⟨steps, hsteps, rfl⟩ := ih hrows
      have hstep := assembleRow_eq_ok_iff.mpr ⟨i, hrow, rfl⟩
      exact ⟨stepOf row i :: steps, by simp [hstep, hsteps], rfl⟩

/-- A source that spells the program: the lines of a table in any layout, with or without a mark in
front. A final line feed is an empty last line. -/
def IsSpelling (p : Program) (source : String) : Prop :=
  ∃ plain text : String, IsTable p (sourceLines plain) ∧ IsLaidOut plain.toList text.toList ∧
    (source = text ∨ source = "\uFEFF" ++ text)

theorem IsSpelling.exists_rows {p : Program} {source : String} (h : IsSpelling p source) :
    ∃ rows, readRows (stripMark source) = (rows, []) ∧ (body rows).map Row.read = p.map .ok := by
  obtain ⟨plain, text, htable, hlayout, hsource⟩ := h
  obtain ⟨hstrays, hbody⟩ := map_read_body htable 0
  have hplain : readRows plain = ((readLines plain).filterMap rowOf?, []) := by
    rw [readRows_eq, readLines_eq]
    exact congrArg _ hstrays
  have htext : readRows text = ((readLines plain).filterMap rowOf?, []) := by
    have hrows := readRows_of_isLaidOut hlayout
    rw [String.ofList_toList, String.ofList_toList] at hrows
    rw [hrows, hplain]
  have hmark : stripMark source = text := by
    rcases hsource with rfl | rfl
    · exact stripMark_of_strays_nil (by rw [htext])
    · rw [stripMark, String.toList_append]
      exact String.ofList_toList
  refine ⟨_, hmark ▸ htext, ?_⟩
  rw [readLines_eq]
  exact hbody

/-- Every spelling of a program assembles, and to just this program. -/
theorem ofSource_of_isSpelling {p : Program} {source : String} (h : IsSpelling p source) :
    ∃ a, ofSource source = .ok a ∧ a.program = p := by
  obtain ⟨rows, hrows, hbody⟩ := h.exists_rows
  obtain ⟨steps, hsteps, hprogram⟩ := exists_steps hbody
  exact ⟨ofSteps steps, ofSource_of_rows hrows hsteps, hprogram⟩

/-- Two instructions below a mark, a comment and a header, with two lines between them. -/
theorem ofSource_of_isSpelling_remainder :
    ∃ source a, source = "\uFEFF" ++
        " # constants\ncommand,A,B\nload_Const,005,0X32b,,\n\t\n,,,,,,,\nModulo,0b1100,0,06\n" ∧
      IsSpelling [.loadConst 5 811, .mod 12 0 6] source ∧
      ofSource source = .ok a ∧ a.program = [.loadConst 5 811, .mod 12 0 6] := by
  let text := " # constants\ncommand,A,B\nload_Const,005,0X32b,,\n\t\n,,,,,,,\nModulo,0b1100,0,06\n"
  let p : Program := [.loadConst 5 811, .mod 12 0 6]
  have hlines : sourceLines text = [" # constants", "command,A,B", "load_Const,005,0X32b,,", "\t",
      ",,,,,,,", "Modulo,0b1100,0,06", ""] := by
    decide +kernel
  have hidle : ∀ line ∈ [" # constants", "\t", ",,,,,,,", ""], ¬ IsSignificant line := by
    decide
  have hheader : IsHeader "command,A,B" := by
    refine ⟨"command".toList, ",A,B".toList, by decide, by decide, by simp, ?_⟩
    decide +kernel
  have hfirst : IsRowOf (.loadConst 5 811) "load_Const,005,0X32b,," := by
    refine ⟨"load_Const".toList, ["005", "0X32b", "", ""].map String.toList, by decide,
      .inl (by decide), by decide, fun column => ?_⟩
    cases column
    · exact .decimal ⟨2, by decide⟩
    · exact .hex (.inr rfl) ⟨0, by decide⟩
    · rfl
    · rfl
    · rfl
  have hsecond : IsRowOf (.mod 12 0 6) "Modulo,0b1100,0,06" := by
    refine ⟨"Modulo".toList, ["0b1100", "0", "06"].map String.toList, by decide,
      .inr ⟨rfl, by decide⟩, by decide, fun column => ?_⟩
    cases column
    · exact .binary (.inl rfl) ⟨0, by decide⟩
    · exact .decimal ⟨0, by decide⟩
    · exact .decimal ⟨1, by decide⟩
    · rfl
    · rfl
  have hbody : IsBody p ["load_Const,005,0X32b,,", "\t", ",,,,,,,", "Modulo,0b1100,0,06", ""] :=
    .row hfirst (.idle (by decide) (hidle _ (by decide)) (.idle (by decide) (hidle _ (by decide))
      (.row hsecond (.idle (by decide) (hidle _ (by decide)) .nil))))
  have htable : IsTable p (sourceLines text) :=
    hlines ▸ .idle (by decide) (hidle _ (by decide)) (.header hheader hbody)
  have hspelling : IsSpelling p ("\uFEFF" ++ text) := ⟨text, text, htable, .refl, .inr rfl⟩
  obtain ⟨a, hok, hprogram⟩ := ofSource_of_isSpelling hspelling
  exact ⟨_, a, rfl, hspelling, hok, hprogram⟩

end Assembly

end RecordMachine
