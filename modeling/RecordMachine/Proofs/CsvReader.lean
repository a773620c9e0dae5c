import RecordMachine.Proofs.Lines
import RecordMachine.Text.Quoted
/-!
# Reading comma-separated records

Records end in a line feed, perhaps behind a carriage return, and their fields are separated by
commas. A field between quotes may hold any characters, with each quote written twice; a field
without quotes holds no quote, no separator and no line break. What is written field by field is
read back as these fields.
-/
namespace RecordMachine.Csv

/-- Where a reader stands in a field, or behind the carriage return of a line break. -/
inductive Place
  | start
  | bare
  | quoted
  /-- Behind a quote in a quoted field, which closes the field unless a second quote follows. -/
  | closed
  | returned
  deriving DecidableEq, Repr

def Place.mayEnd : Place → Bool
  | .start | .bare | .closed => true
  | .quoted | .returned => false

/-- The characters of a field, the fields in front of it and the records above it. -/
structure Reader where
  place : Place
  field : List Char
  fields : List String
  records : List (List String)
  deriving DecidableEq, Repr

namespace Reader

def initial : Reader := ⟨.start, [], [], []⟩

def add (r : Reader) (place : Place) (c : Char) : Reader :=
  { r with place := place, field := r.field ++ [c] }

def record (r : Reader) : List String := r.fields ++ [String.ofList r.field]

def endField (r : Reader) : Reader := ⟨.start, [], r.record, r.records⟩

def endRecord (r : Reader) : Reader := ⟨.start, [], [], r.records ++ [r.record]⟩

def endAt? (r : Reader) (c : Char) : Option Reader :=
  if c = ',' then some r.endField
  else if c = '\n' then some r.endRecord
  else if c = '\r' then some { r with place := .returned }
  else none

def bareStep (r : Reader) (c : Char) : Reader := (r.endAt? c).getD (r.add .bare c)

def step (r : Reader) (c : Char) : Option Reader :=
  match r.place with
  | .start => some (if c = '"' then { r with place := .quoted } else r.bareStep c)
  | .bare => if c = '"' then none else some (r.bareStep c)
  | .quoted => some (if c = '"' then { r with place := .closed } else r.add .quoted c)
  | .closed => if c = '"' then some (r.add .quoted c) else r.endAt? c
  | .returned => if c = '\n' then some r.endRecord else none

def run (r : Reader) (cs : List Char) : Option Reader := cs.foldlM step r

/-- The records of a text that ends here; the last one may go without a line break. -/
def finish (r : Reader) : Option (List (List String)) :=
  if r.place.mayEnd then
    some (if r.place = .start ∧ r.fields = [] then r.records else r.endRecord.records)
  else none

theorem run_append (r : Reader) (cs ds : List Char) :
    r.run (cs ++ ds) = (r.run cs).bind fun s => s.run ds :=
  List.foldlM_append

theorem run_cons (r : Reader) (c : Char) (cs : List Char) :
    r.run (c :: cs) = (r.step c).bind fun s => s.run cs :=
  List.foldlM_cons

theorem step_of_mayEnd {r : Reader} (h : r.place.mayEnd = true) {c : Char} (hc : c ≠ '"')
    {s : Reader} (hs : r.endAt? c = some s) : r.step c = some s := by
  unfold step
  cases hp : r.place with
  | start => simp [hc, bareStep, hs]
  | bare => simp [hc, bareStep, hs]
  | closed => simp [hc, hs]
  | quoted => simp [hp, Place.mayEnd] at h
  | returned => simp [hp, Place.mayEnd] at h

theorem step_comma {r : Reader} (h : r.place.mayEnd = true) : r.step ',' = some r.endField :=
  step_of_mayEnd h (by decide) rfl

theorem step_newline {r : Reader} (h : r.place.mayEnd = true) : r.step '\n' = some r.endRecord :=
  step_of_mayEnd h (by decide) rfl

variable (field : List Char) (fields : List String) (records : List (List String))

theorem run_bare {cs : List Char} (h : ∀ c ∈ cs, Text.needsQuotes c = false) :
    run ⟨.bare, field, fields, records⟩ cs = some ⟨.bare, field ++ cs, fields, records⟩ := by
  induction cs generalizing field with
  | nil => rw [List.append_nil]; rfl
  | cons c cs ih =>
    obtain ⟨hc, hcs⟩ := List.forall_mem_cons.mp h
    simp only [Text.needsQuotes, Bool.or_eq_false_iff, beq_eq_false_iff_ne] at hc
    have hstep : step ⟨.bare, field, fields, records⟩ c =
        some ⟨.bare, field ++ [c], fields, records⟩ := by
      simp [step, bareStep, endAt?, add, hc]
    rw [run_cons, hstep, Option.bind_some, ih _ hcs, List.append_assoc]
    rfl

theorem run_doubleQuotes (cs : List Char) :
    run ⟨.quoted, field, fields, records⟩ (Text.doubleQuotes cs) =
      some ⟨.quoted, field ++ cs, fields, records⟩ := by
  induction cs generalizing field with
  | nil => rw [List.append_nil]; rfl
  | cons c cs ih =>
    have hstep : run ⟨.quoted, field, fields, records⟩ (if c = '"' then ['"', '"'] else [c]) =
        some ⟨.quoted, field ++ [c], fields, records⟩ := by
      split
      next hc => subst hc; rfl
      next hc => simp [run, step, add, hc]
    rw [Text.doubleQuotes, List.flatMap_cons, run_append, hstep, Option.bind_some]
    rw [Text.doubleQuotes] at ih
    rw [ih, List.append_assoc]
    rfl

theorem run_csvField (text : String) :
    ∃ place, place.mayEnd = true ∧
      run ⟨.start, [], fields, records⟩ (Text.csvField text).toList =
        some ⟨place, text.toList, fields, records⟩ := by
  unfold Text.csvField
  split
  next =>
    refine ⟨.closed, rfl, ?_⟩
    have hopen : step ⟨.start, [], fields, records⟩ '"' = some ⟨.quoted, [], fields, records⟩ := rfl
    rw [String.toList_ofList, List.cons_append, run_cons, hopen, Option.bind_some, run_append,
      run_doubleQuotes]
    rfl
  next h =>
    have hplain : ∀ c ∈ text.toList, Text.needsQuotes c = false := by
      simpa using h
    cases hcs : text.toList with
    | nil => exact ⟨.start, rfl, rfl⟩
    | cons c cs =>
      rw [hcs] at hplain
      obtain ⟨hc, hrest⟩ := List.forall_mem_cons.mp hplain
      simp only [Text.needsQuotes, Bool.or_eq_false_iff, beq_eq_false_iff_ne] at hc
      have hstep : step ⟨.start, [], fields, records⟩ c = some ⟨.bare, [c], fields, records⟩ := by
        simp [step, bareStep, endAt?, add, hc]
      refine ⟨.bare, rfl, ?_⟩
      rw [run_cons, hstep, Option.bind_some, run_bare _ _ _ hrest]
      rfl

end Reader

def line (record : List String) : String := String.intercalate "," (record.map Text.csvField)

namespace Reader

theorem run_line (first : String) (more fields : List String) (records : List (List String)) :
    run ⟨.start, [], fields, records⟩ (line (first :: more) ++ "\n").toList =
      some ⟨.start, [], [], records ++ [fields ++ first :: more]⟩ := by
  induction more generalizing first fields with
  | nil =>
    obtain ⟨place, hend, hrun⟩ := run_csvField fields records first
    have hline : line [first] = Text.csvField first := String.intercalate_singleton
    have hfeed : "\n".toList = ['\n'] := rfl
    rw [hline, String.toList_append, run_append, hrun, Option.bind_some, hfeed, run_cons,
      step_newline hend, endRecord, record, String.ofList_toList]
    rfl
  | cons second more ih =>
    obtain ⟨place, hend, hrun⟩ := run_csvField fields records first
    have hline : (line (first :: second :: more) ++ "\n").toList =
        (Text.csvField first).toList ++ ',' :: (line (second :: more) ++ "\n").toList := by
      rw [line, List.map_cons, List.map_cons, String.intercalate_cons_cons]
      simp [line]
    rw [hline, run_append, hrun, Option.bind_some, run_cons, step_comma hend, Option.bind_some,
      endField, record, String.ofList_toList, ih]
    simp

theorem run_lines {written : List (List String)} (h : ∀ record ∈ written, record ≠ [])
    (records : List (List String)) :
    run ⟨.start, [], [], records⟩ (Text.unlines (written.map line)).toList =
      some ⟨.start, [], [], records ++ written⟩ := by
  induction written generalizing records with
  | nil => rw [List.append_nil]; rfl
  | cons record written ih =>
    obtain ⟨hne, hrest⟩ := List.forall_mem_cons.mp h
    obtain ⟨first, more, rfl⟩ := List.exists_cons_of_ne_nil hne
    rw [List.map_cons, Table.unlines_cons, String.toList_append, run_append, run_line,
      Option.bind_some, List.nil_append, ih hrest, List.append_assoc]
    rfl

end Reader

/-- The records of a text, if it is well formed. -/
def read (text : String) : Option (List (List String)) :=
  (Reader.initial.run text.toList).bind Reader.finish

def readField (text : String) : Option String :=
  (Reader.initial.run text.toList).bind fun r =>
    if r.place.mayEnd ∧ r.fields = [] ∧ r.records = [] then some (String.ofList r.field) else none

theorem readField_csvField (text : String) : readField (Text.csvField text) = some text := by
  obtain ⟨place, hend, hrun⟩ := Reader.run_csvField [] [] text
  rw [readField, Reader.initial, hrun, Option.bind_some, if_pos ⟨hend, rfl, rfl⟩,
    String.ofList_toList]

theorem read_unlines {records : List (List String)} (h : ∀ record ∈ records, record ≠ []) :
    read (Text.unlines (records.map line)) = some records := by
  rw [read, Reader.initial, Reader.run_lines h]
  rfl

example : read "a,\"b, \"\"c\"\"\"\n" = some [["a", "b, \"c\""]] := by decide +kernel

example : read "a,\"b\"c\n" = none := by decide +kernel

end RecordMachine.Csv
