import RecordMachine.Proofs.Lexeme
import RecordMachine.Table.Row
/-!
# Cells of joined texts

A line that is written cell by cell is read cell by cell.
-/
namespace RecordMachine.Table

abbrev comma : Lexeme := ⟨.comma, [',']⟩

namespace Cell

theorem filter_append_skipped {group skipped : List Lexeme}
    (h : ∀ l ∈ skipped, l.isSkipped = true) :
    (group ++ skipped).filter (!·.isSkipped) = group.filter (!·.isSkipped) := by
  have hs : skipped.filter (!·.isSkipped) = [] := by
    rw [List.filter_eq_nil_iff]
    intro l hl
    simp [h l hl]
  rw [List.filter_append, hs, List.append_nil]

theorem sourceText_append_skipped {group skipped : List Lexeme}
    (h : ∀ l ∈ skipped, l.isSkipped = true) :
    sourceText (group ++ skipped) = sourceText group := by
  have hr : ∀ l ∈ skipped.reverse, l.isSkipped = true := fun l hl => h l (List.mem_reverse.mp hl)
  have hcore : (((group ++ skipped).dropWhile Lexeme.isSkipped).reverse).dropWhile Lexeme.isSkipped =
      ((group.dropWhile Lexeme.isSkipped).reverse).dropWhile Lexeme.isSkipped := by
    induction group with
    | nil =>
      rw [List.nil_append, List.dropWhile_eq_nil_iff.mpr h]
      rfl
    | cons l group ih =>
      rw [List.cons_append, List.dropWhile_cons, List.dropWhile_cons]
      split
      · exact ih
      · rw [← List.cons_append, List.reverse_append, List.dropWhile_append_of_pos hr]
  rw [sourceText, hcore, sourceText]

theorem ofLexemes_append_skipped {group skipped : List Lexeme}
    (h : ∀ l ∈ skipped, l.isSkipped = true) : ofLexemes (group ++ skipped) = ofLexemes group := by
  rw [ofLexemes, ofLexemes, filter_append_skipped h, sourceText_append_skipped h]

def read (cs : List Char) : Cell := ofLexemes (scan cs)

theorem read_nil : read [] = .blank := by
  rw [read, scan_nil]
  rfl

theorem read_word {cs : List Char} (h : isWord cs = true) : read cs = .word (String.ofList cs) := by
  rw [read, scan_word h]
  rfl

theorem read_number {cs : List Char} {kind : LexemeKind} {n : Nat}
    (h : scan cs = [⟨kind, cs⟩]) (hn : Lexeme.number? ⟨kind, cs⟩ = some n) :
    read cs = .number n := by
  rw [read, h, ofLexemes]
  cases kind <;> simp_all [Lexeme.number?, Lexeme.isSkipped]

theorem read_digits {cs : List Char} (hne : cs ≠ []) (hcs : ∀ x ∈ cs, x.isDigit = true) {n : Nat}
    (hn : Text.positional? 10 cs = some n) : read cs = .number n :=
  read_number (scan_digits hne hcs) hn

end Cell

theorem kind_of_isSkipped {l : Lexeme} (h : l.isSkipped = true) :
    (l.kind == .comma) = false ∧ (l.kind == .stray) = false := by
  simp only [Lexeme.isSkipped, Bool.or_eq_true, beq_iff_eq] at h
  rcases h with h | h
  · rw [h]
    exact ⟨rfl, rfl⟩
  · rw [h]
    exact ⟨rfl, rfl⟩

/-- A text that a separator or a comment cannot cut and that holds no stray character. -/
structure IsCellText (cs : List Char) : Prop where
  noComment : '#' ∉ cs
  noComma : ∀ l ∈ scan cs, (l.kind == .comma) = false
  noStray : ∀ l ∈ scan cs, (l.kind == .stray) = false

theorem IsCellText.nil : IsCellText [] := by
  constructor <;> simp [scan_nil]

theorem IsCellText.of_scan {cs : List Char} {kind : LexemeKind} (h : scan cs = [⟨kind, cs⟩])
    (hcomma : kind ≠ .comma) (hstray : kind ≠ .stray) (hcs : ∀ c ∈ cs, isWordChar c = true) :
    IsCellText cs := by
  constructor
  · intro hc
    cases hcs _ hc
  · simp [h, hcomma]
  · simp [h, hstray]

theorem IsCellText.word {cs : List Char} (h : isWord cs = true) : IsCellText cs :=
  .of_scan (scan_word h) (by decide) (by decide) (isWordChar_of_isWord h)

theorem IsCellText.digits {cs : List Char} (hne : cs ≠ []) (hcs : ∀ x ∈ cs, x.isDigit = true) :
    IsCellText cs :=
  .of_scan (scan_digits hne hcs) (by decide) (by decide) fun x hx =>
    isWordChar_iff.mpr (.inr (hcs x hx))

theorem scan_intercalate {parts : List (List Char)} (h : ∀ p ∈ parts, '#' ∉ p) :
    scan ([','].intercalate parts) = [comma].intercalate (parts.map scan) := by
  induction parts with
  | nil => simp [scan_nil]
  | cons p parts ih =>
    have hrest := ih fun q hq => h q (List.mem_cons_of_mem _ hq)
    cases parts with
    | nil => simp
    | cons q parts =>
      rw [List.intercalate_cons_cons, List.append_assoc, List.singleton_append,
        scan_append (by decide) (fun hs => by cases hs) (fun _ => h p List.mem_cons_self),
        scan_comma, hrest]
      simp only [List.map_cons, List.intercalate_cons_cons, List.append_assoc]
      rfl

theorem cells_intercalate {parts : List (List Char)} (hne : parts ≠ [])
    (h : ∀ p ∈ parts, ∀ l ∈ scan p, (l.kind == .comma) = false) :
    (([comma].intercalate (parts.map scan)).splitOnP (·.kind == .comma)).map Cell.ofLexemes =
      parts.map Cell.read := by
  induction parts with
  | nil => exact absurd rfl hne
  | cons p parts ih =>
    have hp := h p List.mem_cons_self
    cases parts with
    | nil =>
      rw [List.map_singleton, List.intercalate_singleton, List.splitOnP_eq_singleton hp]
      rfl
    | cons q parts =>
      have hrest := ih (List.cons_ne_nil _ _) fun r hr => h r (List.mem_cons_of_mem _ hr)
      rw [List.map_cons, List.map_cons, List.intercalate_cons_cons, ← List.map_cons,
        List.append_assoc, List.singleton_append,
        List.splitOnP_append_cons_of_forall_mem hp comma rfl, List.map_cons, hrest]
      rfl

theorem find?_stray_intercalate {parts : List (List Char)} (h : ∀ p ∈ parts, IsCellText p) :
    ([comma].intercalate (parts.map scan)).find? (·.kind == .stray) = none := by
  have hpart : ∀ p ∈ parts, (scan p).find? (·.kind == .stray) = none := by
    intro p hp
    rw [List.find?_eq_none]
    intro l hl
    simp [(h p hp).noStray l hl]
  induction parts with
  | nil => rfl
  | cons p parts ih =>
    have hrest := ih (fun q hq => h q (List.mem_cons_of_mem _ hq)) fun q hq =>
      hpart q (List.mem_cons_of_mem _ hq)
    cases parts with
    | nil =>
      rw [List.map_singleton, List.intercalate_singleton, hpart p List.mem_cons_self]
    | cons q parts =>
      rw [List.map_cons, List.map_cons, List.intercalate_cons_cons, ← List.map_cons,
        List.append_assoc, List.singleton_append, List.find?_append,
        hpart p List.mem_cons_self, List.find?_cons, hrest]
      rfl

theorem readLine_intercalate {p : List Char} {parts : List (List Char)}
    (h : ∀ q ∈ p :: parts, IsCellText q) (hp : (Cell.read p).isBlank = false) :
    readLine (scan ([','].intercalate (p :: parts))) = .cells ((p :: parts).map Cell.read) := by
  rw [scan_intercalate fun q hq => (h q hq).noComment, readLine, find?_stray_intercalate h,
    cells_intercalate (List.cons_ne_nil _ _) fun q hq => (h q hq).noComma]
  simp [hp]

theorem readLine_nil : readLine [] = .blank := rfl

theorem readLine_comment {cs : List Char} (h : '\n' ∉ cs) :
    readLine (scan ('#' :: cs)) = .blank := by
  rw [scan_comment h]
  rfl

def rowOf? : Nat × LineReading → Option Row
  | (line, .cells cells) => some ⟨line, cells⟩
  | (_, .blank) | (_, .stray _) => none

def strayOf? : Nat × LineReading → Option RowError
  | (line, .stray text) => some ⟨line, .strayCharacter text⟩
  | (_, .blank) | (_, .cells _) => none

theorem readRows_eq (source : String) :
    readRows source =
      ((readLines source).filterMap rowOf?, (readLines source).filterMap strayOf?) := by
  rw [readRows]
  congr 1
  · congr 1
    funext ⟨line, reading⟩
    cases reading <;> rfl
  · congr 1
    funext ⟨line, reading⟩
    cases reading <;> rfl

end RecordMachine.Table
