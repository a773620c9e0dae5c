import RecordMachine.Program
/-!
# Listings

A stream is shown record by record as a program table that assembles again.
Bad records and a short tail become comments.
-/
namespace RecordMachine.Listing

inductive Content
  | instruction (i : Instruction)
  | undecodable (error : CodecError)
  | tail
  deriving DecidableEq, Repr

/-- A record of a stream, or the bytes after its last record. -/
structure Line where
  offset : Nat
  bytes : List UInt8
  content : Content
  deriving DecidableEq, Repr

inductive Error
  | badRecord (offset : Nat) (error : CodecError)
  | shortTail (offset remaining : Nat)
  deriving DecidableEq, Repr

namespace Error

def offset : Error → Nat
  | .badRecord offset _ | .shortTail offset _ => offset

def message : Error → String
  | .badRecord offset error => s!"Invalid record at offset {offset}: {error.message}"
  | .shortTail offset remaining => s!"Truncated record at offset {offset}: {remaining} byte(s)"

end Error

namespace Line

def isError (line : Line) : Bool :=
  match line.content with
  | .instruction _ => false
  | .undecodable _ | .tail => true

/-- An instruction is a table row with its place in a comment; all else is a comment. -/
def render (line : Line) : String :=
  let place := s!"{Text.hex 4 line.offset}: {Text.hexBytes line.bytes}"
  match line.content with
  | .instruction i => s!"{Text.alignLeft 28 i.tableRow} # {place}"
  | .undecodable error => s!"# {place}  ERROR: {error.message}"
  | .tail => s!"# {place}  TRUNCATED: {line.bytes.length} byte(s) after the last full record"

end Line

def recordLine (strict : Bool) (r : Record) (index : Nat) : Line where
  offset := index * Record.size
  bytes := r.bytes
  content :=
    match if strict then r.decodeStrict else r.decode with
    | .ok i => .instruction i
    | .error error => .undecodable error

/-- One line for each record and one for a short tail. With `strict`, padding bits must be clear. -/
def lines (bytes : List UInt8) (strict : Bool) : List Line :=
  let (records, tail) := Record.split bytes
  let whole := records.zipIdx.map fun (r, index) => recordLine strict r index
  if tail.isEmpty then whole
  else whole ++ [⟨bytes.length - tail.length, tail, .tail⟩]

def ofBytes (bytes : List UInt8) (strict : Bool) : String :=
  let lines := lines bytes strict
  let errors := (lines.filter Line.isError).length
  Text.unlines ([
    "# UVM disassembly",
    s!"# {bytes.length} bytes, {bytes.length / Record.size} records, {errors} errors",
    "Command,A,B,C,D,E"] ++ lines.map Line.render)

def collect : List Line → Except Error Program
  | [] => .ok []
  | line :: rest =>
    match line.content with
    | .instruction i => return i :: (← collect rest)
    | .undecodable error => .error (.badRecord line.offset error)
    | .tail => .error (.shortTail line.offset line.bytes.length)

/-- The program of a stream. -/
def program (bytes : List UInt8) (strict : Bool) : Except Error Program :=
  collect (lines bytes strict)

end RecordMachine.Listing
