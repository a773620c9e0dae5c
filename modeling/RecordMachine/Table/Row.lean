import RecordMachine.Table.Fault
import RecordMachine.Table.Lexeme
/-!
# Rows of a program table

Each line of a source is split at its commas into cells. A line that holds a
stray character yields an error in place of its row, and a line without any
significant cell yields nothing.
-/
namespace RecordMachine.Table

inductive Cell
  | blank
  | word (text : String)
  | number (value : Nat)
  | oversized (text : String)
  | malformed (text : String)
  deriving DecidableEq, Repr

namespace Cell

def isBlank (cell : Cell) : Bool := cell == .blank

/-- The cell as it is quoted in messages. -/
def text : Cell → String
  | .blank => ""
  | .number value => toString value
  | .word text | .oversized text | .malformed text => text

def sourceText (group : List Lexeme) : String :=
  let core := ((group.dropWhile Lexeme.isSkipped).reverse.dropWhile Lexeme.isSkipped).reverse
  String.ofList (core.flatMap Lexeme.text)

/-- Only a single word or a single unsigned number makes a valid cell. -/
def ofLexemes (group : List Lexeme) : Cell :=
  match group.filter (!·.isSkipped) with
  | [] => .blank
  | [lexeme] =>
    match lexeme.kind with
    | .identifier => .word (String.ofList lexeme.text)
    | .decimal | .hex | .binary =>
      match lexeme.number? with
      | some value => .number value
      | none => .oversized (String.ofList lexeme.text)
    | _ => .malformed (sourceText group)
  | _ => .malformed (sourceText group)

end Cell

/-- A line with at least one significant cell. -/
structure Row where
  line : Nat
  cells : List Cell
  deriving DecidableEq, Repr

namespace Row

/-- A row that is too short has blank cells to its right. -/
def cell (row : Row) (index : Nat) : Cell := row.cells.getD index .blank

/-- The row `Command, A, B, …` that may stand on top of a table. -/
def isHeader (row : Row) : Bool :=
  match row.cell 0 with
  | .word name => name.toList.map Char.toLower == "command".toList
  | _ => false

end Row

inductive LineReading
  | blank
  | cells (cells : List Cell)
  | stray (text : String)
  deriving DecidableEq, Repr

def readLine (lexemes : List Lexeme) : LineReading :=
  match lexemes.find? (·.kind == .stray) with
  | some lexeme => .stray (String.ofList lexeme.text)
  | none =>
    let cells := (lexemes.splitOnP (·.kind == .comma)).map Cell.ofLexemes
    if cells.all Cell.isBlank then .blank else .cells cells

def readLines (source : String) : List (Nat × LineReading) :=
  ((scan source.toList).splitOnP (·.kind == .newline)).zipIdx.map fun (lexemes, index) =>
    (index + 1, readLine lexemes)

/-- The rows of a source, and an error for each line with a stray character. -/
def readRows (source : String) : List Row × List RowError :=
  let lines := readLines source
  (lines.filterMap fun (line, reading) =>
      match reading with
      | .cells cells => some ⟨line, cells⟩
      | .blank | .stray _ => none,
    lines.filterMap fun (line, reading) =>
      match reading with
      | .stray text => some ⟨line, .strayCharacter text⟩
      | .blank | .cells _ => none)

end RecordMachine.Table
