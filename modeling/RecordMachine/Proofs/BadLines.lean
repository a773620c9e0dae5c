import RecordMachine.Assembly
import RecordMachine.Proofs.Lines
import RecordMachine.Proofs.RowGrammar
/-!
# Bad lines of a table

Stray characters and rows that are no instructions are found in two passes.
Together they are reported as one error for each bad line, by ascending line,
and each error is that of the line on its own.
-/
namespace RecordMachine

open Table

namespace Table

def Row.error? (row : Row) : Option RowError :=
  match row.instruction with
  | .ok _ => none
  | .error error => some error

/-- The first row of a table, if it is a header. -/
def header? (table : String) : Option Row := (readRows table).1.head?.filter Row.isHeader

/-- A character that starts no lexeme, outside of comments. -/
def HoldsStray (text : String) : Prop := ∃ l ∈ scan text.toList, l.kind = .stray

instance (text : String) : Decidable (HoldsStray text) :=
  inferInstanceAs (Decidable (∃ l ∈ scan text.toList, l.kind = .stray))

theorem Row.error?_eq_some_iff {row : Row} {error : RowError} :
    row.error? = some error ↔ row.instruction = .error error := by
  unfold Row.error?
  cases row.instruction <;> simp

theorem Row.read_line (cells : List Cell) (m n : Nat) : Row.read ⟨m, cells⟩ = Row.read ⟨n, cells⟩ :=
  rfl

theorem exists_stray_iff {text : String} :
    (∃ stray, readLine (scan text.toList) = .stray stray) ↔ HoldsStray text := by
  have hfind : HoldsStray text ↔ ((scan text.toList).find? (·.kind == .stray)).isSome := by
    rw [List.find?_isSome]
    simp only [HoldsStray, beq_iff_eq]
  rw [hfind, readLine]
  cases (scan text.toList).find? (·.kind == .stray) with
  | some lexeme => simp
  | none =>
    simp only [Option.isSome_none, Bool.false_eq_true, iff_false, not_exists]
    intro stray
    split <;> simp

end Table

namespace AssemblyError

theorem errors_ofErrors (errors : List RowError) : (ofErrors errors).errors = errors := by
  match errors with
  | [] | [_] | _ :: _ :: _ => rfl

end AssemblyError

namespace Assembly

theorem assembleRow_eq (row : Row) :
    assembleRow row = row.instruction.map fun i => ⟨row.line, i, i.record⟩ := by
  unfold assembleRow
  cases row.instruction with
  | error error => rfl
  | ok i =>
    simp only [i.encode_eq, Except.mapError, bind, Except.bind, pure, Except.pure, Except.map]

theorem separate_map_assembleRow (rows : List Row) :
    (separate (rows.map assembleRow)).2 = rows.filterMap Row.error? := by
  induction rows with
  | nil => rfl
  | cons row rows ih =>
    rw [List.map_cons, assembleRow_eq, List.filterMap_cons, ← ih]
    unfold Row.error?
    cases row.instruction <;> rfl

def faults (table : String) : List RowError :=
  (readRows table).2 ++ (body (readRows table).1).filterMap Row.error?

def sortedFaults (table : String) : List RowError :=
  (faults table).mergeSort fun a b => a.row ≤ b.row

def steps (table : String) : List Step := (separate ((body (readRows table).1).map assembleRow)).1

theorem ofSource_eq (source : String) :
    ofSource source =
      if faults (stripMark source) = [] then .ok (ofSteps (steps (stripMark source)))
      else .error (.ofErrors (sortedFaults (stripMark source))) := by
  rw [sortedFaults, faults, ← separate_map_assembleRow]
  simp only [ofSource, steps]
  split
  next h => rw [h, if_pos rfl]
  next h => rw [if_neg h]

theorem mem_body_iff {rows : List Row} (h : rows.Nodup) {row : Row} :
    row ∈ body rows ↔ row ∈ rows ∧ rows.head?.filter Row.isHeader ≠ some row := by
  cases rows with
  | nil => simp [body]
  | cons first rows =>
    obtain ⟨hf, -⟩ := List.nodup_cons.mp h
    rw [body, List.head?_cons, Option.filter_some, List.mem_cons]
    split
    next hh =>
      constructor
      · intro hr
        exact ⟨.inr hr, fun he => hf (Option.some.inj he ▸ hr)⟩
      · rintro ⟨rfl | hr, hne⟩
        · exact absurd rfl hne
        · exact hr
    next hh => simp

theorem mem_faults_iff {table : String} {error : RowError} :
    error ∈ faults table ↔ error ∈ (readRows table).2 ∨
      ∃ row ∈ (readRows table).1, header? table ≠ some row ∧ row.instruction = .error error := by
  rw [faults, List.mem_append, List.mem_filterMap]
  simp only [mem_body_iff (nodup_rows table), Row.error?_eq_some_iff, and_assoc]
  rfl

theorem body_sublist (rows : List Row) : (body rows).Sublist rows := by
  cases rows with
  | nil => exact .slnil
  | cons row rows =>
    rw [body]
    split
    · exact List.sublist_cons_self row rows
    · exact List.Sublist.refl _

theorem sortedFaults_perm (table : String) : (sortedFaults table).Perm (faults table) :=
  List.mergeSort_perm _ _

theorem mem_errors_iff {source : String} {e : AssemblyError} (h : ofSource source = .error e)
    {error : RowError} : error ∈ e.errors ↔ error ∈ faults (stripMark source) := by
  rw [ofSource_eq] at h
  split at h
  next => cases h
  next =>
    cases h
    rw [AssemblyError.errors_ofErrors, (sortedFaults_perm _).mem_iff]

end Assembly

end RecordMachine
