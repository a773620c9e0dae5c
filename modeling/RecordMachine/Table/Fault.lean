import RecordMachine.Codec.Error
/-!
# Faults in a program table
-/
namespace RecordMachine.Table

inductive OperandFault
  | missing
  | notUnsigned (text : String)
  | tooWide (text : String) (bits : Nat)
  deriving DecidableEq, Repr

namespace OperandFault

def value : OperandFault → String
  | .missing => "<missing>"
  | .notUnsigned text | .tooWide text _ => text

def reason : OperandFault → String
  | .missing => "missing"
  | .notUnsigned _ => "not an unsigned integer"
  | .tooWide _ bits => s!"exceeds {bits} bits"

end OperandFault

inductive RowFault
  | strayCharacter (text : String)
  | tooManyColumns (limit found : Nat)
  | missingCommand
  | unknownMnemonic (name : String)
  | notAMnemonic (text : String)
  | operand (field : String) (fault : OperandFault)
  | unusedColumn (column : Column) (opcode : Opcode) (text : String)
  | unencodable (error : CodecError)
  deriving DecidableEq, Repr

/-- A fault and the number of its source line, counted from one. -/
structure RowError where
  row : Nat
  fault : RowFault
  deriving DecidableEq, Repr

/-- The fault alone, without its line. -/
def RowFault.message : RowFault → String
  | .strayCharacter text => s!"unexpected character '{text}'"
  | .tooManyColumns limit found => s!"expected at most {limit} columns, found {found}"
  | .missingCommand => "missing command"
  | .unknownMnemonic name => s!"unknown mnemonic '{name}'"
  | .notAMnemonic text => s!"expected a mnemonic, found '{text}'"
  | .operand _ fault => s!"{fault.value} ({fault.reason})"
  | .unusedColumn column opcode text =>
    s!"column {column.name} is not used by {opcode.mnemonic} (found '{text}')"
  | .unencodable error => error.message

def RowError.message (e : RowError) : String :=
  match e.fault with
  | .operand field _ => s!"Range error at row {e.row}, field {field}: {e.fault.message}"
  | _ => s!"Syntax error at row {e.row}: {e.fault.message}"

end RecordMachine.Table
