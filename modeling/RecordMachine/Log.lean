import RecordMachine.Codec
import RecordMachine.Text.Quoted
/-!
# The assembly log

The log ties every record of a stream to the source line that it came from.
-/
namespace RecordMachine

structure Log.Operand where
  name : String
  column : Column
  value : Nat
  deriving DecidableEq, Repr

/-- How one record came out of one source line. -/
structure Log.Entry where
  row : Nat
  /-- How many records stand before this one in the stream. -/
  index : Nat
  mnemonic : String
  operands : List Log.Operand
  hex : String
  record : Record
  deriving DecidableEq, Repr

namespace Log.Entry

def ofInstruction (row index : Nat) (i : Instruction) (record : Record) : Log.Entry where
  row := row
  index := index
  mnemonic := i.opcode.mnemonic
  operands := i.opcode.operands.zipWith (fun f value => ⟨f.name, f.column, value⟩) i.values
  hex := Text.hexBytes record.bytes
  record := record

def columnText (e : Log.Entry) (column : Column) : String :=
  match e.operands.find? (·.column == column) with
  | some operand => toString operand.value
  | none => ""

def csvLine (e : Log.Entry) : String :=
  String.intercalate "," (toString e.row :: e.mnemonic :: Column.all.map e.columnText ++ [e.hex])

def toJson (e : Log.Entry) : Json :=
  .object [("row", .number e.row), ("index", .number e.index), ("mnemonic", .text e.mnemonic),
    ("operands", .list (e.operands.map fun operand =>
      .object [("field", .text operand.name), ("column", .text operand.column.name),
        ("value", .number operand.value)])),
    ("hex", .text e.hex)]

end Log.Entry

abbrev Log := List Log.Entry

namespace Log

def csv (log : Log) : String :=
  Text.unlines ("row,Command,A,B,C,D,E,bytes" :: log.map Entry.csvLine)

def toJson (log : Log) : Json := .list (log.map Entry.toJson)

end Log

end RecordMachine
