import RecordMachine.Opcode
import RecordMachine.Text.Numeral
/-!
# Faults of records and operands
-/
namespace RecordMachine

inductive CodecError
  | operandTooWide (field : String) (value bits : Nat)
  | operandCount (opcode : Opcode) (expected found : Nat)
  | unknownTag (tag : UInt8)
  | paddingSet (opcode : Opcode) (padding : Nat)
  | partialRecord (byteCount : Nat)
  deriving DecidableEq, Repr

def CodecError.message : CodecError → String
  | .operandTooWide field value bits =>
    s!"Operand {field} = {value} does not fit in {bits} bits"
  | .operandCount opcode expected found =>
    s!"{opcode.mnemonic} expects {expected} operands, found {found}"
  | .unknownTag tag => s!"Invalid opcode: {Text.hex 2 tag.toNat}"
  | .paddingSet opcode padding =>
    s!"Non-zero padding in {opcode.mnemonic} record: {Text.hex 1 padding}"
  | .partialRecord byteCount =>
    s!"Invalid program size: {byteCount} bytes is not a multiple of 6"

end RecordMachine
