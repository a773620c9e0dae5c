import Mathlib.Data.List.DropRight
import RecordMachine.Proofs.BadLines
import RecordMachine.Proofs.Spacing
/-!
# Cells as they are quoted

The cells of a line are read from the texts between its commas, and an error quotes such a text. A
number that fits its cell but not its operand is the exception: it is quoted in decimal digits.
-/
namespace RecordMachine

open Table

namespace Table

open Parts

/-! ## Texts of cells -/

def strip (cs : List Char) : List Char := (cs.dropWhile isSpace).rdropWhile isSpace

def rawCells (line : List Char) : List (List Char) := ((code line).splitOn ',').map strip

/-- A text that starts and ends with something else than a blank and holds no comment. -/
structure IsStripped (cs : List Char) : Prop where
  noComment : '#' ∉ cs
  head : ∀ c ∈ cs.head?, isSpace c = false
  last : ∀ c ∈ cs.getLast?, isSpace c = false

theorem exists_strip (cs : List Char) :
    ∃ front back, cs = front ++ strip cs ++ back ∧ (∀ c ∈ front, isSpace c = true) ∧
      ∀ c ∈ back, isSpace c = true :=
  exists_dropped_ends isSpace cs

theorem isStripped_strip {cs : List Char} (h : '#' ∉ cs) : IsStripped (strip cs) where
  noComment := by
    intro hm
    obtain ⟨front, back, hcs, -, -⟩ := exists_strip cs
    rw [hcs] at h
    simp [hm] at h
  head := by
    intro c hc
    obtain ⟨rest, hs⟩ := List.head?_eq_some_iff.mp hc
    obtain ⟨back, hb⟩ := List.rdropWhile_prefix isSpace (l := cs.dropWhile isSpace)
    have hdrop : (cs.dropWhile isSpace).head? = some c := by
      rw [← hb]
      show (strip cs ++ back).head? = some c
      rw [hs]
      rfl
    have hnot := List.head?_dropWhile_not isSpace cs
    rwa [hdrop] at hnot
  last := by
    intro c hc
    have hne : strip cs ≠ [] := by
      intro hnil
      simp [hnil] at hc
    rw [← (List.getLast_eq_iff_getLast?_eq_some hne).mpr hc]
    exact Bool.eq_false_iff.mpr (List.rdropWhile_last_not isSpace _ hne)

theorem read_strip {cs : List Char} (h : '#' ∉ cs) : Cell.read (strip cs) = Cell.read cs := by
  obtain ⟨front, back, hcs, hf, hb⟩ := exists_strip cs
  have hback := (sameCell_append_spaces (isStripped_strip h).noComment hb).cell
  have hfront : Cell.read (front ++ (strip cs ++ back)) = Cell.read (strip cs ++ back) :=
    (sameCell_spaces_append hf).cell
  rw [← List.append_assoc, ← hcs] at hfront
  exact (hfront.trans hback).symm

namespace IsStripped

variable {cs : List Char}

theorem isSkipped_head (h : IsStripped cs) : ∀ l ∈ (scan cs).head?, l.isSkipped = false := by
  intro l hl
  cases cs with
  | nil => simp [scan_nil] at hl
  | cons c rest =>
    rw [scan_cons, List.head?_cons, Option.mem_some_iff] at hl
    subst hl
    have hblank : (longest c rest).1 ≠ .blank := by
      intro hk
      have hspace := isSpace_of_longest hk
      simp [h.head c rfl] at hspace
    have hcomment : (longest c rest).1 ≠ .comment := by
      intro hk
      obtain rfl : c = '#' := eq_of_opener?_longest (congrArg LexemeKind.opener? hk)
      exact h.noComment List.mem_cons_self
    simp [Lexeme.isSkipped, hblank, hcomment]

theorem isSkipped_last (h : IsStripped cs) : ∀ l ∈ (scan cs).getLast?, l.isSkipped = false := by
  intro l hl
  obtain ⟨init, hi⟩ := List.getLast?_eq_some_iff.mp hl
  have hm : l ∈ scan cs := by simp [hi]
  have hcomment : (l.kind == .comment) = false := kind_ne_of_notMem rfl h.noComment l hm
  have htext := flatMap_text_scan cs
  rw [hi, List.flatMap_append, List.flatMap_singleton] at htext
  have hblank : (l.kind == .blank) = false := by
    refine beq_eq_false_iff_ne.mpr fun hk => ?_
    -- the last character would be one of a blank
    have hne := text_ne_nil_of_mem_scan hm
    have hspace := isSpace_of_mem_blank hm hk _ (List.getLast_mem hne)
    have hlast : cs.getLast? = some (l.text.getLast hne) := by
      rw [← htext, List.getLast?_append, List.getLast?_eq_some_getLast hne, Option.some_or]
    simp [h.last _ hlast] at hspace
  simp [Lexeme.isSkipped, hblank, hcomment]

theorem sourceText_scan (h : IsStripped cs) : Cell.sourceText (scan cs) = String.ofList cs := by
  have hfront : (scan cs).dropWhile Lexeme.isSkipped = scan cs := by
    cases hs : scan cs with
    | nil => rfl
    | cons l rest =>
      have hl := h.isSkipped_head l (by rw [hs]; rfl)
      rw [List.dropWhile_cons_of_neg (by simp [hl])]
  have hback : (scan cs).reverse.dropWhile Lexeme.isSkipped = (scan cs).reverse := by
    cases hs : (scan cs).reverse with
    | nil => rfl
    | cons l rest =>
      have hl := h.isSkipped_last l (by rw [← List.head?_reverse, hs]; rfl)
      rw [List.dropWhile_cons_of_neg (by simp [hl])]
  rw [Cell.sourceText, hfront, hback, List.reverse_reverse, flatMap_text_scan]

theorem read_cases (h : IsStripped cs) (hne : cs ≠ []) :
    (∃ n, Cell.read cs = .number n) ∨
      Cell.read cs = .word (String.ofList cs) ∨
      Cell.read cs = .oversized (String.ofList cs) ∨
      Cell.read cs = .malformed (String.ofList cs) := by
  have htext := flatMap_text_scan cs
  have hsource := h.sourceText_scan
  have hfirst := h.isSkipped_head
  have hlast := h.isSkipped_last
  rw [Cell.read]
  generalize scan cs = group at *
  cases group with
  | nil => exact absurd htext.symm hne
  | cons first rest =>
    have hf := hfirst first rfl
    rcases List.eq_nil_or_concat rest with rfl | ⟨middle, last, rfl⟩
    · obtain rfl : first.text = cs := by simpa using htext
      rw [Cell.ofLexemes, List.filter_cons_of_pos (by simp [hf]), List.filter_nil, hsource]
      dsimp only
      cases first.number? with
      | some n => split <;> simp
      | none => split <;> simp
    · have hend : (first :: middle.concat last).getLast? = some last := by
        rw [List.concat_eq_append, ← List.cons_append, List.getLast?_concat]
      have hl := hlast last hend
      have hfilter : ∃ second more, (first :: middle.concat last).filter (!·.isSkipped) =
          first :: second :: more := by
        cases hm : middle.filter (!·.isSkipped) with
        | nil => exact ⟨last, [], by simp [hf, hl, hm]⟩
        | cons second more => exact ⟨second, more ++ [last], by simp [hf, hl, hm]⟩
      obtain ⟨second, more, hfilter⟩ := hfilter
      rw [Cell.ofLexemes, hfilter, hsource]
      exact Or.inr (Or.inr (Or.inr rfl))

end IsStripped

/-! ## Lines -/

/-- The text of the cell with this index; a line that is too short has empty cells to its right. -/
def rawCell (line : String) (index : Nat) : String :=
  String.ofList ((rawCells line.toList).getD index [])

def spelledRow (number : Nat) (line : String) : Row :=
  ⟨number, (rawCells line.toList).map Cell.read⟩

theorem notMem_of_mem_code {line part : List Char} (hp : part ∈ (code line).splitOn ',') :
    '#' ∉ part :=
  notMem_of_mem_splitOn (Or.inr (notMem_code line)) hp

theorem isStripped_rawCell (line : String) (index : Nat) :
    IsStripped (rawCell line index).toList := by
  rw [rawCell, String.toList_ofList, List.getD_eq_getElem?_getD]
  cases hc : (rawCells line.toList)[index]? with
  | none => exact ⟨by simp, by simp, by simp⟩
  | some cs =>
    obtain ⟨part, hp, rfl⟩ := List.mem_map.mp (List.mem_of_getElem? hc)
    exact isStripped_strip (notMem_of_mem_code hp)

theorem cell_spelledRow (number : Nat) (line : String) (index : Nat) :
    (spelledRow number line).cell index = Cell.read (rawCell line index).toList := by
  rw [rawCell, String.toList_ofList, Row.cell, spelledRow, List.getD_eq_getElem?_getD,
    List.getD_eq_getElem?_getD, List.getElem?_map]
  cases (rawCells line.toList)[index]? with
  | none => exact Cell.read_nil.symm
  | some cs => rfl

theorem map_ofLexemes_scan {cs : List Char} (h : '#' ∉ cs) :
    ((scan cs).splitOnP (·.kind == .comma)).map Cell.ofLexemes =
      (cs.splitOn ',').map Cell.read := by
  have hcomment : ∀ part ∈ cs.splitOn ',', '#' ∉ part :=
    fun part hp => notMem_of_mem_splitOn (Or.inr h) hp
  have hcomma : ∀ part ∈ cs.splitOn ',', ∀ l ∈ scan part, (l.kind == .comma) = false :=
    fun part hp => kind_ne_of_notMem rfl (notMem_of_mem_splitOn (Or.inl rfl) hp)
  have hscan : scan cs = [comma].intercalate ((cs.splitOn ',').map scan) := by
    rw [← scan_intercalate hcomment, List.intercalate_splitOn]
  rw [hscan, cells_intercalate (List.splitOn_ne_nil _ _) hcomma]

theorem cells_of_readLine {line : String} (hl : Text.IsLine line) {cells : List Cell}
    (h : readLine (scan line.toList) = .cells cells) :
    cells = (rawCells line.toList).map Cell.read := by
  have hread : (rawCells line.toList).map Cell.read =
      ((code line.toList).splitOn ',').map Cell.read := by
    rw [rawCells, List.map_map]
    exact List.map_congr_left fun part hp => read_strip (notMem_of_mem_code hp)
  rw [readLine_scan_code hl, readLine] at h
  split at h
  next => cases h
  next =>
    dsimp only at h
    split at h
    next => cases h
    next =>
      cases h
      rw [hread, map_ofLexemes_scan (notMem_code _)]

/-! ## Errors -/

theorem value_faultOf (f : Operand) (cell : Cell) :
    (faultOf f cell).value = if cell = .blank then "<missing>" else cell.text := by
  cases cell with
  | blank => rfl
  | word text => rfl
  | number value => rfl
  | oversized text => rfl
  | malformed text => rfl

/-- What an error quotes of a cell with this text: the digits of a number, else the text itself. -/
def quotedText (raw : String) : String :=
  if raw = "" then "<missing>"
  else
    match Cell.read raw.toList with
    | .number n => toString n
    | _ => raw

theorem value_faultOf_read {raw : String} (h : IsStripped raw.toList) (f : Operand) :
    (faultOf f (Cell.read raw.toList)).value = quotedText raw := by
  rw [value_faultOf, quotedText]
  by_cases hraw : raw = ""
  · rw [if_pos hraw, hraw, if_pos]
    exact Cell.read_nil
  · have hne : raw.toList ≠ [] := fun hnil => hraw (String.toList_eq_nil_iff.mp hnil)
    rw [if_neg hraw]
    rcases h.read_cases hne with ⟨n, hc⟩ | hc | hc | hc
    · simp [hc, Cell.text]
    · simp [hc, Cell.text]
    · simp [hc, Cell.text]
    · simp [hc, Cell.text]

end Table

namespace Assembly

/-- The error stands at this line of the source, and this is the first operand of the command for
which the line holds no number that fits. -/
structure Blames (source : String) (error : RowError) (line : String) (f : Operand) : Prop where
  line_of : IsLineOf (stripMark source) error.row line
  lacks : ∃ opcode, (spelledRow error.row line).Lacks opcode f

/-- A range error names the operand and quotes its cell. -/
theorem errors_quote_cells {source : String} {e : AssemblyError} {error : RowError}
    {field : String} {fault : OperandFault} (h : ofSource source = .error e)
    (hm : error ∈ e.errors) (hf : error.fault = .operand field fault) :
    ∃ line f, Blames source error line f ∧ f.name = field ∧
      fault.value = quotedText (rawCell line (1 + f.column.index)) := by
  rcases mem_faults_iff.mp ((mem_errors_iff h).mp hm) with hs | ⟨row, hr, -, hi⟩
  · obtain ⟨text, stray, -, -, hstray⟩ := mem_strays_iff.mp hs
    rw [hstray] at hf
    cases hf
  · obtain ⟨line, hl, hcells⟩ := mem_rows_iff.mp hr
    obtain ⟨hrow, hread⟩ := Row.instruction_eq_error_iff.mp hi
    have hspelled : row = spelledRow error.row line := by
      rw [hrow, spelledRow, ← cells_of_readLine hl.1 hcells]
    rw [hf] at hread
    obtain ⟨opcode, f, hlacks, hname, hfault⟩ := Row.exists_lacks_of_read hread
    rw [hspelled] at hlacks hfault
    rw [Row.columnCell, cell_spelledRow] at hfault
    refine ⟨line, f, ⟨hrow ▸ hl, opcode, hlacks⟩, hname, ?_⟩
    rw [hfault, value_faultOf_read (isStripped_rawCell _ _)]

theorem errors_quote_negative :
    ofSource "MOD,1, -5 ,2" = .error (.single ⟨1, .operand "a_reg" (.notUnsigned "-5")⟩) ∧
      ∃ line f, Blames "MOD,1, -5 ,2" ⟨1, .operand "a_reg" (.notUnsigned "-5")⟩ line f ∧
        f.name = "a_reg" ∧ "-5" = quotedText (rawCell line (1 + f.column.index)) := by
  have hsource : ofSource "MOD,1, -5 ,2" =
      .error (.single ⟨1, .operand "a_reg" (.notUnsigned "-5")⟩) := by
    decide +kernel
  exact ⟨hsource, errors_quote_cells hsource List.mem_cons_self rfl⟩

/-- Every range error quotes the text of its cell. -/
def QuotesSource (source : String) : Prop :=
  ∀ e, ofSource source = .error e → ∀ error ∈ e.errors, ∀ field fault,
    error.fault = .operand field fault →
      ∃ line f, Blames source error line f ∧ f.name = field ∧
        fault.value =
          if rawCell line (1 + f.column.index) = "" then "<missing>"
          else rawCell line (1 + f.column.index)

/-- A number that is too wide for its operand is quoted by its value, not as it is written. -/
theorem not_quotesSource : ¬QuotesSource "LOAD_CONST,0x1FF,0" := by
  intro hquotes
  have hsource : ofSource "LOAD_CONST,0x1FF,0" =
      .error (.single ⟨1, .operand "dst" (.tooWide "511" 8)⟩) := by
    decide +kernel
  obtain ⟨line, f, hblames, hname, hvalue⟩ := hquotes _ hsource _ List.mem_cons_self _ _ rfl
  have hself : IsLineOf (stripMark "LOAD_CONST,0x1FF,0") 1 "LOAD_CONST,0x1FF,0" :=
    ⟨by decide, [], [], by decide, by simp, by simp, rfl⟩
  obtain rfl := hblames.line_of.unique hself
  have hcolumn : ∀ opcode : Opcode, ∀ g ∈ opcode.operands, g.name = "dst" → g.column = .a := by
    intro opcode
    cases opcode <;> decide
  obtain ⟨opcode, hlacks⟩ := hblames.lacks
  obtain ⟨before, after, hoperands, -⟩ := hlacks.first
  rw [hcolumn opcode f (by simp [hoperands]) hname] at hvalue
  revert hvalue
  decide +kernel

end Assembly

end RecordMachine
