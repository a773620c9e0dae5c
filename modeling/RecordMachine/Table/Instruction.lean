import RecordMachine.Instruction
import RecordMachine.Table.Row
/-!
# Rows as instructions

A row names a command and gives each of its operands in the operand's column;
all other columns are blank.
-/
namespace RecordMachine.Table

def maxCells : Nat := 1 + Column.all.length

namespace Row

def columnCell (row : Row) (column : Column) : Cell := row.cell (1 + column.index)

def opcode (row : Row) : Except RowFault Opcode :=
  match row.cell 0 with
  | .word name =>
    match Opcode.ofMnemonic? name with
    | some opcode => .ok opcode
    | none => .error (.unknownMnemonic name)
  | .blank => .error .missingCommand
  | cell => .error (.notAMnemonic cell.text)

def operand (row : Row) (f : Operand) : Except RowFault Nat :=
  match row.columnCell f.column with
  | .number value =>
    match f.check value with
    | .ok () => .ok value
    | .error _ => .error (.operand f.name (.tooWide (toString value) f.width))
  | .blank => .error (.operand f.name .missing)
  | .oversized text => .error (.operand f.name (.tooWide text f.width))
  | .word text | .malformed text => .error (.operand f.name (.notUnsigned text))

/-- The first column that is filled although no operand is read from it. -/
def unusedColumn? (row : Row) (opcode : Opcode) : Option Column :=
  Column.all.find? fun column =>
    !opcode.operands.any (·.column == column) && !(row.columnCell column).isBlank

/-- The instruction that the cells spell, or the first fault in them. -/
def read (row : Row) : Except RowFault Instruction :=
  if maxCells < row.cells.length then .error (.tooManyColumns maxCells row.cells.length)
  else do
    let opcode ← row.opcode
    let values ← opcode.operands.mapM row.operand
    match row.unusedColumn? opcode with
    | some column => throw (.unusedColumn column opcode (row.columnCell column).text)
    | none => (Instruction.ofValues opcode values).mapError .unencodable

def instruction (row : Row) : Except RowError Instruction :=
  row.read.mapError fun fault => ⟨row.line, fault⟩

end Row

end RecordMachine.Table
