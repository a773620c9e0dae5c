import RecordMachine.Log
import RecordMachine.Program
import RecordMachine.Table.Instruction
/-!
# Assembly

A program table becomes a program, its stream and its log. A table with bad
lines becomes an error that lists every one of them.
-/
namespace RecordMachine

open Table

structure Assembly where
  program : Program
  bytes : List UInt8
  log : Log
  deriving DecidableEq, Repr

/-- The bad lines of a table: a single one stands alone. -/
inductive AssemblyError
  | single (error : RowError)
  | multiple (errors : List RowError)
  deriving DecidableEq, Repr

namespace AssemblyError

def ofErrors : List RowError → AssemblyError
  | [error] => .single error
  | errors => .multiple errors

def errors : AssemblyError → List RowError
  | .single error => [error]
  | .multiple errors => errors

def row? (e : AssemblyError) : Option Nat := e.errors.head?.map RowError.row

def message : AssemblyError → String
  | .single error => error.message
  | .multiple errors =>
    s!"{errors.length} errors:" ++ String.join (errors.map fun e => "\n  " ++ e.message)

end AssemblyError

namespace Assembly

structure Step where
  row : Nat
  instruction : Instruction
  record : Record
  deriving DecidableEq, Repr

def assembleRow (row : Row) : Except RowError Step := do
  let i ← row.instruction
  let record ← i.encode.mapError fun error => ⟨row.line, .unencodable error⟩
  return ⟨row.line, i, record⟩

def ofSteps (steps : List Step) : Assembly where
  program := steps.map Step.instruction
  bytes := steps.flatMap fun s => s.record.bytes
  log := steps.zipIdx.map fun (s, index) => .ofInstruction s.row index s.instruction s.record

def separate : List (Except RowError Step) → List Step × List RowError
  | [] => ([], [])
  | .ok s :: results =>
    let later := separate results
    (s :: later.1, later.2)
  | .error e :: results =>
    let later := separate results
    (later.1, e :: later.2)

/-- Spreadsheets mark their exports with a leading U+FEFF, which is no part of the table. -/
def stripMark (source : String) : String :=
  match source.toList with
  | '\uFEFF' :: rest => String.ofList rest
  | _ => source

/-- The rows that hold instructions: a header is no more than the first row. -/
def body : List Row → List Row
  | [] => []
  | row :: rows => if row.isHeader then rows else row :: rows

/-- Assembles a table if all its lines are good; else reports the bad ones by ascending line. -/
def ofSource (source : String) : Except AssemblyError Assembly :=
  let (rows, strays) := readRows (stripMark source)
  let (steps, faults) := separate ((body rows).map assembleRow)
  match strays ++ faults with
  | [] => .ok (ofSteps steps)
  | errors => .error (.ofErrors (errors.mergeSort fun a b => a.row ≤ b.row))

end Assembly

end RecordMachine
