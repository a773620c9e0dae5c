import RecordMachine.Text.Numeral
/-!
# The layout of operands

A record carries a payload of forty bits. Each operand of an opcode owns a run
of payload bits and is written in one column of a program table.
-/
namespace RecordMachine

inductive Column
  | a | b | c | d | e
  deriving DecidableEq, Repr

namespace Column

def all : List Column := [.a, .b, .c, .d, .e]

/-- Zero for the column next to the command. -/
def index : Column → Nat
  | .a => 0 | .b => 1 | .c => 2 | .d => 3 | .e => 4

def name : Column → String
  | .a => "A" | .b => "B" | .c => "C" | .d => "D" | .e => "E"

end Column

namespace Payload

def width : Nat := 40

def full : Nat := (1 <<< width) - 1

end Payload

structure Operand where
  name : String
  column : Column
  /-- The number of payload bits. -/
  width : Nat
  /-- The place of the lowest of these bits. -/
  shift : Nat
  deriving DecidableEq, Repr

namespace Operand

/-- The largest value that fits, in words of sixty-four bits. -/
def largest (f : Operand) : Nat := (1 <<< min f.width 64) - 1

/-- Moves a number up to the operand's place; bits past the sixty-fourth are lost. -/
def place (f : Operand) (n : Nat) : Nat := (n <<< f.shift) % Text.wordLimit

def ownBits (f : Operand) : Nat := f.place f.largest

def extract (f : Operand) (payload : Nat) : Nat := (payload >>> f.shift) &&& f.largest

def insert (f : Operand) (value : Nat) : Nat := f.place (value &&& f.largest)

end Operand

def Payload.padding (operands : List Operand) : Nat :=
  let used := operands.foldl (fun bits f => bits ||| f.ownBits) 0
  full ^^^ (full &&& used)

end RecordMachine
