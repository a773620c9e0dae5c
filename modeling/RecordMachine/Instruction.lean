import RecordMachine.Codec.Error
import RecordMachine.Json
/-!
# Instructions

An instruction is an opcode with a value for each of its operands. The values
have the widths of the layout, so every instruction has a record.
-/
namespace RecordMachine

inductive Instruction
  | loadConst (dst : UInt8) (imm : UInt32)
  | readMem (dst : UInt8) (addr : UInt16)
  | writeMem (addr : UInt16) (src : UInt8)
  | mod (dstAddr : UInt16) (aReg bReg : UInt8)
  deriving DecidableEq, Repr

def Operand.check (f : Operand) (value : Nat) : Except CodecError Unit :=
  if f.largest < value then .error (.operandTooWide f.name value f.width) else .ok ()

def Operand.checkAll : List Operand → List Nat → Except CodecError Unit
  | f :: operands, value :: values => do
    f.check value
    checkAll operands values
  | _, _ => .ok ()

namespace Instruction

def opcode : Instruction → Opcode
  | .loadConst .. => .loadConst
  | .readMem .. => .readMem
  | .writeMem .. => .writeMem
  | .mod .. => .mod

def values : Instruction → List Nat
  | .loadConst dst imm => [dst.toNat, imm.toNat]
  | .readMem dst addr => [dst.toNat, addr.toNat]
  | .writeMem addr src => [addr.toNat, src.toNat]
  | .mod dstAddr aReg bReg => [dstAddr.toNat, aReg.toNat, bReg.toNat]

def namedValues (i : Instruction) : List (String × Nat) :=
  (i.opcode.operands.map Operand.name).zip i.values

def columnValue? (i : Instruction) (column : Column) : Option Nat :=
  ((i.opcode.operands.zip i.values).find? (·.1.column == column)).map (·.2)

/-- The instruction with these values, if they are as many as the operands and each of them fits. -/
def ofValues (opcode : Opcode) (values : List Nat) : Except CodecError Instruction :=
  match opcode, values with
  | .loadConst, [dst, imm] => do
    Operand.checkAll opcode.operands values
    return .loadConst dst.toUInt8 imm.toUInt32
  | .readMem, [dst, addr] => do
    Operand.checkAll opcode.operands values
    return .readMem dst.toUInt8 addr.toUInt16
  | .writeMem, [addr, src] => do
    Operand.checkAll opcode.operands values
    return .writeMem addr.toUInt16 src.toUInt8
  | .mod, [dstAddr, aReg, bReg] => do
    Operand.checkAll opcode.operands values
    return .mod dstAddr.toUInt16 aReg.toUInt8 bReg.toUInt8
  | _, _ => .error (.operandCount opcode opcode.operands.length values.length)

def registersRead : Instruction → List UInt8
  | .loadConst .. | .readMem .. => []
  | .writeMem _ src => [src]
  | .mod _ aReg bReg => [aReg, bReg]

def registerWritten? : Instruction → Option UInt8
  | .loadConst dst _ | .readMem dst _ => some dst
  | .writeMem .. | .mod .. => none

/-- The memory cell that the instruction reads or writes. -/
def cellAddress? : Instruction → Option UInt16
  | .loadConst .. => none
  | .readMem _ addr | .writeMem addr _ | .mod addr _ _ => some addr

def valueText (named : String × Nat) : String := s!"{named.1}={named.2}"

def display (i : Instruction) : String :=
  s!"{i.opcode.mnemonic} " ++ String.intercalate ", " (i.namedValues.map valueText)

/-- The row of a program table: the mnemonic and one cell for each column. -/
def tableRow (i : Instruction) : String :=
  String.intercalate "," (i.opcode.mnemonic :: Column.all.map fun column =>
    match i.columnValue? column with
    | some value => toString value
    | none => "")

def toJson (i : Instruction) : Json :=
  .object [(i.opcode.jsonName, .object (i.namedValues.map fun (name, value) =>
    (name, .number value)))]

end Instruction

end RecordMachine
