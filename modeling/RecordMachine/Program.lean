import RecordMachine.Codec
import RecordMachine.Text.Quoted
/-!
# Programs

A program is a list of instructions, and its stream is the concatenation of
their records.
-/
namespace RecordMachine

abbrev Program := List Instruction

namespace Program

def byteCount (p : Program) : Nat := p.length * Record.size

def records (p : Program) : Except CodecError (List Record) := p.mapM Instruction.encode

def toBytes : Program → Except CodecError (List UInt8)
  | [] => .ok []
  | i :: rest => do
    let r ← i.encode
    return r.bytes ++ (← toBytes rest)

/-- Reads a whole stream; a remainder or an unknown tag spoils all of it. -/
def ofBytes (bytes : List UInt8) : Except CodecError Program :=
  match Record.split bytes with
  | (records, []) => records.mapM Record.decode
  | (_, _ :: _) => .error (.partialRecord bytes.length)

def display (p : Program) : String :=
  Text.unlines (p.zipIdx.map fun (i, index) =>
    s!"{Text.alignRight 4 (toString index)}: {i.display}")

end Program

end RecordMachine
