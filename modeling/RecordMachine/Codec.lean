import RecordMachine.Instruction
import RecordMachine.Record
/-!
# Instructions as records

Each value is placed in its operand's payload bits and all other payload bits
are clear. Plain decoding ignores the bits that no operand owns; strict
decoding refuses a record that sets one of them.
-/
namespace RecordMachine

def Payload.pack : List Operand → List Nat → Except CodecError Nat
  | f :: operands, value :: values => do
    f.check value
    let rest ← pack operands values
    return f.insert value ||| rest
  | _, _ => .ok 0

def Record.ofValues (opcode : Opcode) (values : List Nat) : Except CodecError Record :=
  if values.length ≠ opcode.operands.length then
    .error (.operandCount opcode opcode.operands.length values.length)
  else do
    let payload ← Payload.pack opcode.operands values
    return Record.pack opcode.tag payload

def Instruction.encode (i : Instruction) : Except CodecError Record :=
  Record.ofValues i.opcode i.values

namespace Record

/-- The instruction of a record, whatever its padding bits are. -/
def decode (r : Record) : Except CodecError Instruction :=
  match Opcode.ofTag? r.tag with
  | none => .error (.unknownTag r.tag)
  | some opcode => Instruction.ofValues opcode (opcode.operands.map (·.extract r.payload))

/-- The instruction of a record whose padding bits are all clear. -/
def decodeStrict (r : Record) : Except CodecError Instruction := do
  let i ← r.decode
  let padding := r.payload &&& i.opcode.padding
  if padding = 0 then return i else throw (.paddingSet i.opcode padding)

end Record

end RecordMachine
