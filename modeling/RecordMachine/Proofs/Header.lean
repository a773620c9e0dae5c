import RecordMachine.Proofs.Spacing
import RecordMachine.Proofs.Traceability
/-!
# The header of a table

A header is a row that is called `Command`. On the first significant line it is skipped, and below
a row it is an error like any other row that is no instruction.
-/
namespace RecordMachine

open Table

namespace Table

open Parts

theorem Cell.isBlank_ofLexemes {group : List Lexeme} :
    (Cell.ofLexemes group).isBlank = true ↔ ∀ l ∈ group, l.isSkipped = true := by
  have hnil : group.filter (!·.isSkipped) = [] ↔ ∀ l ∈ group, l.isSkipped = true := by
    simp [List.filter_eq_nil_iff]
  rw [← hnil, Cell.ofLexemes]
  cases group.filter (!·.isSkipped) with
  | nil => simp [Cell.isBlank]
  | cons l rest =>
    cases rest with
    | cons _ _ => simp [Cell.isBlank]
    | nil =>
      simp only [List.cons_ne_nil, iff_false, Bool.not_eq_true]
      split
      · rfl
      · split <;> rfl
      · split <;> rfl
      · split <;> rfl
      · rfl

theorem readLine_eq_blank_iff {lexemes : List Lexeme} :
    readLine lexemes = .blank ↔
      ∀ l ∈ lexemes, (l.kind == .comma) = true ∨ l.isSkipped = true := by
  have hcells : ((lexemes.splitOnP (·.kind == .comma)).map Cell.ofLexemes).all Cell.isBlank = true ↔
      ∀ l ∈ lexemes, (l.kind == .comma) = true ∨ l.isSkipped = true := by
    rw [List.all_map, List.all_eq_true, ← forall_mem_splitOnP]
    simp only [Function.comp_apply, Cell.isBlank_ofLexemes]
  rw [readLine, ← hcells]
  cases hf : lexemes.find? (·.kind == .stray) with
  | none =>
    dsimp only
    split
    next h => simp [h]
    next h => simp [h]
  | some l =>
    have hk : l.kind = .stray := by simpa using List.find?_some hf
    have hl := List.mem_of_find?_eq_some hf
    simp only [reduceCtorEq, false_iff, hcells]
    intro h
    have hor := h l hl
    simp [hk, Lexeme.isSkipped] at hor

/-- Something stands in the line besides blanks, separators and a comment. -/
def IsSignificant (text : String) : Prop :=
  ∃ c ∈ code text.toList, isSpace c = false ∧ c ≠ ','

instance (text : String) : Decidable (IsSignificant text) :=
  decidable_of_iff ((code text.toList).any fun c => !isSpace c && c != ',')
    (by simp [IsSignificant])

theorem forall_mem_scan_iff {cs : List Char} (h : '#' ∉ cs) :
    (∀ l ∈ scan cs, (l.kind == .comma) = true ∨ l.isSkipped = true) ↔
      ∀ c ∈ cs, isSpace c = true ∨ c = ',' := by
  constructor
  · intro hall c hc
    rw [← flatMap_text_scan cs, List.mem_flatMap] at hc
    obtain ⟨l, hl, hcl⟩ := hc
    have hcomment : (l.kind == .comment) = false := kind_ne_of_notMem rfl h l hl
    rcases hall l hl with hk | hk
    · obtain ⟨before, d, rest, -, rfl⟩ := exists_of_mem_scan hl
      have hkind : (longest d rest).1 = .comma := beq_iff_eq.mp hk
      have hd : d = ',' := eq_of_opener?_longest (congrArg LexemeKind.opener? hkind)
      subst hd
      exact .inr (List.mem_singleton.mp hcl)
    · have hblank : l.kind = .blank := by
        simpa [Lexeme.isSkipped, hcomment] using hk
      exact .inl (isSpace_of_mem_blank hl hblank c hcl)
  · intro hall l hl
    obtain ⟨before, d, rest, rfl, rfl⟩ := exists_of_mem_scan hl
    rcases hall d (by simp) with hd | rfl
    · right
      rw [longest_of_isSpace hd]
      rfl
    · left
      rfl

theorem readLine_scan_eq_blank_iff {text : String} (h : Text.IsLine text) :
    readLine (scan text.toList) = .blank ↔ ¬ IsSignificant text := by
  rw [readLine_scan_code h, readLine_eq_blank_iff, forall_mem_scan_iff (notMem_code _),
    IsSignificant]
  constructor
  · rintro hall ⟨c, hc, hs, hne⟩
    rcases hall c hc with hsp | rfl
    · simp [hs] at hsp
    · exact hne rfl
  · intro hno c hc
    by_cases hne : c = ','
    · exact .inr hne
    · refine .inl (Bool.not_eq_false _ ▸ fun hs => hno ⟨c, hc, hs, hne⟩)

def IsFirstSignificant (table : String) (number : Nat) : Prop :=
  (∃ text, IsLineOf table number text ∧ IsSignificant text) ∧
    ∀ earlier text, earlier < number → IsLineOf table earlier text → ¬ IsSignificant text

theorem eq_of_line_eq {source : String} {row other : Row} (hr : row ∈ (readRows source).1)
    (ho : other ∈ (readRows source).1) (h : row.line = other.line) : row = other := by
  obtain ⟨text, ht, hcells⟩ := mem_rows_iff.mp hr
  obtain ⟨text', ht', hcells'⟩ := mem_rows_iff.mp ho
  have htext : text = text' := ht.unique (h ▸ ht')
  rw [htext, hcells'] at hcells
  obtain ⟨line, cells⟩ := row
  obtain ⟨line', cells'⟩ := other
  simp only [LineReading.cells.injEq] at h hcells
  rw [h, hcells]

theorem isSignificant_of_mem_rows {source text : String} {row : Row}
    (hr : row ∈ (readRows source).1) (ht : IsLineOf source row.line text) :
    IsSignificant text := by
  obtain ⟨text', ht', hcells⟩ := mem_rows_iff.mp hr
  rw [← ht.unique ht'] at hcells
  by_contra hno
  rw [(readLine_scan_eq_blank_iff ht.1).mpr hno] at hcells
  cases hcells

theorem exists_row_of_isSignificant {source text : String} {number : Nat}
    (ht : IsLineOf source number text) (hs : IsSignificant text) (hstray : ¬ HoldsStray text) :
    ∃ row ∈ (readRows source).1, row.line = number := by
  cases hr : readLine (scan text.toList) with
  | blank => exact absurd hs ((readLine_scan_eq_blank_iff ht.1).mp hr)
  | stray stray => exact absurd (exists_stray_iff.mp ⟨stray, hr⟩) hstray
  | cells cells => exact ⟨⟨number, cells⟩, mem_rows_iff.mpr ⟨text, ht, hr⟩, rfl⟩

theorem header?_of_isFirstSignificant {table : String} {row : Row}
    (hr : row ∈ (readRows table).1) (hh : row.isHeader = true)
    (hf : IsFirstSignificant table row.line) : header? table = some row := by
  have hpair := pairwise_rows table
  cases hrows : (readRows table).1 with
  | nil => simp [hrows] at hr
  | cons first rest =>
    have hmem : first ∈ (readRows table).1 := by simp [hrows]
    rw [hrows, List.mem_cons] at hr
    rcases hr with rfl | hr
    · simp [header?, hrows, hh]
    · rw [hrows] at hpair
      have hlt : first.line < row.line := List.rel_of_pairwise_cons hpair hr
      obtain ⟨text, ht, -⟩ := mem_rows_iff.mp hmem
      exact absurd (isSignificant_of_mem_rows hmem ht) (hf.2 first.line text hlt ht)

theorem header?_ne_of_lt {table : String} {row other : Row} (ho : other ∈ (readRows table).1)
    (hlt : other.line < row.line) : header? table ≠ some row := by
  have hpair := pairwise_rows table
  intro h
  rw [header?, Option.filter_eq_some_iff] at h
  obtain ⟨rest, hrows⟩ := List.head?_eq_some_iff.mp h.1
  rw [hrows] at hpair ho
  rcases List.mem_cons.mp ho with rfl | ho
  · omega
  · have hgt : row.line < other.line := List.rel_of_pairwise_cons hpair ho
    omega

theorem Row.read_header {row : Row} {name : String} (hcell : row.cell 0 = .word name)
    (hname : name.toList.map Char.toLower = "command".toList) :
    row.read = .error (if maxCells < row.cells.length then
      .tooManyColumns maxCells row.cells.length else .unknownMnemonic name) := by
  have hop : row.opcode = .error (.unknownMnemonic name) := by
    rw [Row.opcode, hcell]
    simp only [Row.ofMnemonic?_header hname]
  unfold Row.read
  split
  · rfl
  · simp [hop, bind, Except.bind]

end Table

namespace Assembly

/-- The lines that the outcome tells of: those with an instruction, or else those with an error. -/
def outcomeLines : Except AssemblyError Assembly → List Nat
  | .ok a => a.log.map Log.Entry.row
  | .error e => e.errors.map RowError.row

theorem exists_of_mem_outcomeLines {source : String} {number : Nat}
    (h : number ∈ outcomeLines (ofSource source)) :
    (∃ row ∈ body (readRows (stripMark source)).1, row.line = number) ∨
      ∃ error ∈ (readRows (stripMark source)).2, error.row = number := by
  rw [ofSource_eq] at h
  split at h
  next hf =>
    rw [outcomeLines, row_ofSteps, map_row_steps hf, List.mem_map] at h
    exact .inl h
  next hf =>
    rw [outcomeLines, AssemblyError.errors_ofErrors, List.mem_map] at h
    obtain ⟨error, he, rfl⟩ := h
    rw [(sortedFaults_perm _).mem_iff, faults, List.mem_append, List.mem_filterMap] at he
    rcases he with he | ⟨row, hr, he⟩
    · exact .inr ⟨error, he, rfl⟩
    · rw [Row.error?_eq_some_iff, Row.instruction_eq_error_iff] at he
      exact .inl ⟨row, hr, he.1.symm⟩

theorem exists_error_of_mem_faults {source : String} {error : RowError}
    (h : error ∈ faults (stripMark source)) :
    ∃ e, ofSource source = .error e ∧ error ∈ e.errors := by
  rw [ofSource_eq, if_neg (List.ne_nil_of_mem h)]
  refine ⟨_, rfl, ?_⟩
  rw [AssemblyError.errors_ofErrors, (sortedFaults_perm _).mem_iff]
  exact h

/-- A header on the first significant line is passed over, and one below a line that is a row is
reported as a row with an unknown command, or else with too many columns. -/
theorem ofSource_header {source : String} {row : Row} {name : String}
    (hrow : row ∈ (readRows (stripMark source)).1) (hcell : row.cell 0 = .word name)
    (hname : name.toList.map Char.toLower = "command".toList) :
    (IsFirstSignificant (stripMark source) row.line →
        row.line ∉ outcomeLines (ofSource source)) ∧
      ∀ earlier text, earlier < row.line → IsLineOf (stripMark source) earlier text →
        IsSignificant text → ¬ HoldsStray text →
        ∃ e, ofSource source = .error e ∧
          ⟨row.line, if maxCells < row.cells.length then .tooManyColumns maxCells row.cells.length
            else .unknownMnemonic name⟩ ∈ e.errors := by
  have hh : row.isHeader = true := Row.isHeader_iff.mpr ⟨name, hcell, hname⟩
  constructor
  · intro hfirst hmem
    have hheader := header?_of_isFirstSignificant hrow hh hfirst
    rcases exists_of_mem_outcomeLines hmem with ⟨other, ho, hline⟩ | ⟨error, he, hline⟩
    · obtain ⟨hor, hne⟩ := (mem_body_iff (nodup_rows _)).mp ho
      rw [eq_of_line_eq hor hrow hline] at hne
      exact hne hheader
    · obtain ⟨-, -, hdisjoint⟩ := List.nodup_append.mp (nodup_lines (stripMark source))
      exact hdisjoint _ (List.mem_map_of_mem hrow) _ (List.mem_map_of_mem he) hline.symm
  · intro earlier text hlt ht hs hstray
    obtain ⟨other, ho, rfl⟩ := exists_row_of_isSignificant ht hs hstray
    apply exists_error_of_mem_faults
    rw [mem_faults_iff]
    refine .inr ⟨row, hrow, header?_ne_of_lt ho hlt, ?_⟩
    exact Row.instruction_eq_error_iff.mpr ⟨rfl, Row.read_header hcell hname⟩

theorem ofSource_header_below_row :
    ∃ source e, source = "LOAD_CONST,1,2\n;\ncommand,A\n" ∧
      (⟨3, [.word "command", .word "A"]⟩ : Row) ∈ (readRows (stripMark source)).1 ∧
      ofSource source = .error e ∧ ⟨3, .unknownMnemonic "command"⟩ ∈ e.errors := by
  have hrow : (⟨3, [.word "command", .word "A"]⟩ : Row) ∈
      (readRows (stripMark "LOAD_CONST,1,2\n;\ncommand,A\n")).1 := by
    decide +kernel
  have hline : IsLineOf (stripMark "LOAD_CONST,1,2\n;\ncommand,A\n") 1 "LOAD_CONST,1,2" :=
    ⟨by decide, [], "\n;\ncommand,A\n".toList, by decide, by simp, by simp, rfl⟩
  have hsignificant : IsSignificant "LOAD_CONST,1,2" := by
    decide
  have hstray : ¬ HoldsStray "LOAD_CONST,1,2" := by
    decide +kernel
  have hbelow := (ofSource_header hrow rfl (by decide)).2
  obtain ⟨e, he, hmem⟩ := hbelow 1 _ (by decide) hline hsignificant hstray
  exact ⟨_, e, rfl, hrow, he, hmem⟩

/-- Every header below the first significant line is reported as an unknown command. -/
def ReportsLaterHeaders (source : String) : Prop :=
  ∀ row ∈ (readRows (stripMark source)).1, ∀ name, row.cell 0 = .word name →
    name.toList.map Char.toLower = "command".toList →
    ¬ IsFirstSignificant (stripMark source) row.line →
    ∃ e, ofSource source = .error e ∧ ⟨row.line, .unknownMnemonic name⟩ ∈ e.errors

/-- Below a significant line a header of more than six cells is reported for its width only, and
one below a line that is no row is not reported at all. -/
theorem not_reportsLaterHeaders :
    ¬ ReportsLaterHeaders "MOD,1,2,3\nCommand,,,,,," ∧ ¬ ReportsLaterHeaders ";\nCommand" := by
  constructor
  · intro hreports
    have hlater : ¬ IsFirstSignificant (stripMark "MOD,1,2,3\nCommand,,,,,,") 2 := by
      intro hfirst
      refine hfirst.2 1 "MOD,1,2,3" (by decide) ?_ (by decide)
      exact ⟨by decide, [], "\nCommand,,,,,,".toList, by decide, by simp, by simp, rfl⟩
    have hsource : ofSource "MOD,1,2,3\nCommand,,,,,," =
        .error (.single ⟨2, .tooManyColumns 6 7⟩) := by
      decide +kernel
    obtain ⟨e, he, hmem⟩ := hreports ⟨2, .word "Command" :: List.replicate 6 .blank⟩
      (by decide +kernel) "Command" rfl (by decide) hlater
    obtain rfl := Except.error.inj (hsource.symm.trans he)
    simp [AssemblyError.errors] at hmem
  · intro hreports
    have hlater : ¬ IsFirstSignificant (stripMark ";\nCommand") 2 := by
      intro hfirst
      refine hfirst.2 1 ";" (by decide) ?_ (by decide)
      exact ⟨by decide, [], "\nCommand".toList, by decide, by simp, by simp, rfl⟩
    have hsource : ofSource ";\nCommand" = .error (.single ⟨1, .strayCharacter ";"⟩) := by
      decide +kernel
    obtain ⟨e, he, hmem⟩ := hreports ⟨2, [.word "Command"]⟩ (by decide +kernel) "Command" rfl
      (by decide) hlater
    obtain rfl := Except.error.inj (hsource.symm.trans he)
    simp [AssemblyError.errors] at hmem

end Assembly

end RecordMachine
