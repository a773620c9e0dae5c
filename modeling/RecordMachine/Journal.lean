import RecordMachine.Instruction
import RecordMachine.Text.Quoted
/-!
# The journal of a run

Every executed instruction leaves an entry that tells which cell it overwrote.
A division by zero leaves a second entry, which is a notice only.
-/
namespace RecordMachine

/-- A register or a memory cell. -/
abbrev Word := UInt32

inductive Effect
  | registerWrite (register : UInt8) (before after : Word)
  | memoryWrite (address : UInt16) (before after : Word)
  | divisionByZero (address : UInt16) (dividend : Word)
  deriving DecidableEq, Repr

namespace Effect

def isNotice : Effect → Bool
  | .divisionByZero .. => true
  | .registerWrite .. | .memoryWrite .. => false

def display : Effect → String
  | .registerWrite register before after => s!"r{register.toNat}: {before.toNat} -> {after.toNat}"
  | .memoryWrite address before after => s!"mem[{address.toNat}]: {before.toNat} -> {after.toNat}"
  | .divisionByZero address dividend =>
    s!"notice: division by zero ({dividend.toNat} mod 0), mem[{address.toNat}] = 0"

def toJson : Effect → Json
  | .registerWrite register before after =>
    .object [("kind", .text "register_write"), ("register", .number register.toNat),
      ("before", .number before.toNat), ("after", .number after.toNat)]
  | .memoryWrite address before after =>
    .object [("kind", .text "memory_write"), ("address", .number address.toNat),
      ("before", .number before.toNat), ("after", .number after.toNat)]
  | .divisionByZero address dividend =>
    .object [("kind", .text "division_by_zero"), ("address", .number address.toNat),
      ("dividend", .number dividend.toNat)]

end Effect

structure JournalEntry where
  /-- How many instructions were executed before this one. -/
  step : Nat
  /-- Where the record of the instruction starts in the stream. -/
  offset : Nat
  instruction : Instruction
  effect : Effect
  deriving DecidableEq, Repr

namespace JournalEntry

def isNotice (e : JournalEntry) : Bool := e.effect.isNotice

def display (e : JournalEntry) : String :=
  s!"[{Text.alignRight 4 (toString e.step)}] {Text.hex 4 e.offset}  " ++
    s!"{Text.alignLeft 32 e.instruction.display} {e.effect.display}"

/-- The values as one field, without a comma between them. -/
def valuesText (e : JournalEntry) : String :=
  String.intercalate " " (e.instruction.namedValues.map Instruction.valueText)

def csvLine (e : JournalEntry) : String :=
  String.intercalate "," [toString e.step, toString e.offset, e.instruction.opcode.mnemonic,
    e.valuesText, Text.csvField e.effect.display]

def toJson (e : JournalEntry) : Json :=
  .object [("step", .number e.step), ("offset", .number e.offset),
    ("instruction", e.instruction.toJson), ("effect", e.effect.toJson)]

end JournalEntry

abbrev Journal := List JournalEntry

namespace Journal

def notices (journal : Journal) : Journal := journal.filter JournalEntry.isNotice

def csv (journal : Journal) : String :=
  Text.unlines ("step,offset,opcode,operands,effect" :: journal.map JournalEntry.csvLine)

def toJson (journal : Journal) : Json := .list (journal.map JournalEntry.toJson)

end Journal

end RecordMachine
