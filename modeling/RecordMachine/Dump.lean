import RecordMachine.Dump.Range
import RecordMachine.Machine.Error
import RecordMachine.Machine.State
import RecordMachine.Text.Quoted
/-!
# Dumps

A dump lists the cells of a store over a range of addresses, in ascending
order.
-/
namespace RecordMachine

structure Dump.Entry where
  address : Nat
  value : Word
  deriving DecidableEq, Repr

abbrev Dump := List Dump.Entry

namespace Dump

/-- The cells of a range that lies within the store. -/
def ofCells (store : Store) (cells : Array Word) (range : AddressRange) :
    Except MachineError Dump :=
  let start := range.start.toNat
  let stop := range.stop.toNat
  if stop < start ∨ cells.size ≤ stop then
    .error (.rangeOutside store start stop cells.size)
  else
    .ok ((cells.extract start (stop + 1)).toList.zipIdx start |>.map fun (value, address) =>
      ⟨address, value⟩)

def csv (dump : Dump) : String :=
  Text.unlines ("Address,Value" :: dump.map fun r => s!"{r.address},{r.value.toNat}")

def toJson (dump : Dump) : Json :=
  .list (dump.map fun r =>
    .object [("address", .number r.address), ("value", .number r.value.toNat)])

end Dump

def State.store (s : State) : Store → Array Word
  | .memory => s.memory
  | .registers => s.registers

def State.dump (s : State) (store : Store) (range : AddressRange) : Except MachineError Dump :=
  Dump.ofCells store (s.store store) range

end RecordMachine
