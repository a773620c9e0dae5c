import RecordMachine.Layout
import RecordMachine.Text.Blank
/-!
# Opcodes

The four commands with their tags, their mnemonics and the layout of their
operands.
-/
namespace RecordMachine

inductive Opcode
  | loadConst | readMem | writeMem | mod
  deriving DecidableEq, Repr

namespace Opcode

def all : List Opcode := [.loadConst, .readMem, .writeMem, .mod]

def tag : Opcode → UInt8
  | .loadConst => 0x06 | .readMem => 0x0A | .writeMem => 0x0C | .mod => 0x0E

def ofTag? (tag : UInt8) : Option Opcode := all.find? (·.tag == tag)

def mnemonic : Opcode → String
  | .loadConst => "LOAD_CONST" | .readMem => "READ_MEM" | .writeMem => "WRITE_MEM" | .mod => "MOD"

def jsonName : Opcode → String
  | .loadConst => "LoadConst" | .readMem => "ReadMem" | .writeMem => "WriteMem" | .mod => "Mod"

/-- Every accepted upper-case spelling of a command. -/
def spellings : List (String × Opcode) :=
  all.map (fun opcode => (opcode.mnemonic, opcode)) ++ [("MODULO", .mod)]

/-- Reads a command in any ASCII letter case, with blanks around it. -/
def ofMnemonic? (name : String) : Option Opcode :=
  spellings.lookup (String.ofList ((Text.trim name.toList).map Char.toUpper))

/-- The operands, from the high end of the payload to the low end. -/
def operands : Opcode → List Operand
  | .loadConst => [⟨"dst", .a, 8, 32⟩, ⟨"imm", .b, 32, 0⟩]
  | .readMem => [⟨"dst", .a, 8, 32⟩, ⟨"addr", .b, 16, 16⟩]
  | .writeMem => [⟨"addr", .a, 16, 24⟩, ⟨"src", .b, 8, 16⟩]
  | .mod => [⟨"dst_addr", .a, 16, 24⟩, ⟨"a_reg", .b, 8, 16⟩, ⟨"b_reg", .c, 8, 8⟩]

def padding (opcode : Opcode) : Nat := Payload.padding opcode.operands

end Opcode

end RecordMachine
