import RecordMachine.Text.Numeral
/-!
# Lexemes of a program table

A text is cut, without loss, into its longest lexemes: words, unsigned and
negative numbers, separators, blanks, comments, and single characters that
start nothing. No lexeme but the line feed itself holds a line feed.
-/
namespace RecordMachine.Table

inductive LexemeKind
  | identifier | decimal | hex | binary | negative | comma | newline
  | blank | comment | stray
  deriving DecidableEq, Repr

structure Lexeme where
  kind : LexemeKind
  text : List Char
  deriving DecidableEq, Repr

def isWordStart (c : Char) : Bool := c.isAlpha || c == '_'

def isWordChar (c : Char) : Bool := c.isAlphanum || c == '_'

def isHexDigit (c : Char) : Bool :=
  c.isDigit || ('a' ≤ c && c ≤ 'f') || ('A' ≤ c && c ≤ 'F')

def isBinaryDigit (c : Char) : Bool := c == '0' || c == '1'

def isSpace (c : Char) : Bool := c == ' ' || c == '\t' || c == '\r' || c == '\x0c'

def runLength (p : Char → Bool) (cs : List Char) : Nat := (cs.takeWhile p).length

/-- A number that starts with `c`; a base letter counts only before a digit of its base. -/
def longestNumber (c : Char) (rest : List Char) : LexemeKind × Nat :=
  match rest with
  | [] => (.decimal, 0)
  | letter :: digits =>
    if c = '0' ∧ (letter = 'x' ∨ letter = 'X') ∧ 0 < runLength isHexDigit digits then
      (.hex, 1 + runLength isHexDigit digits)
    else if c = '0' ∧ (letter = 'b' ∨ letter = 'B') ∧ 0 < runLength isBinaryDigit digits then
      (.binary, 1 + runLength isBinaryDigit digits)
    else (.decimal, runLength Char.isDigit rest)

/-- The kind of the longest lexeme at `c`, and how many characters of `rest` belong to it. -/
def longest (c : Char) (rest : List Char) : LexemeKind × Nat :=
  if isWordStart c then (.identifier, runLength isWordChar rest)
  else if c.isDigit then longestNumber c rest
  else if c = '-' ∧ 0 < runLength Char.isDigit rest then (.negative, runLength Char.isDigit rest)
  else if c = ',' then (.comma, 0)
  else if c = '\n' then (.newline, 0)
  else if isSpace c then (.blank, runLength isSpace rest)
  else if c = '#' then (.comment, runLength (· != '\n') rest)
  else (.stray, 0)

def scan : List Char → List Lexeme
  | [] => []
  | c :: rest =>
    let n := (longest c rest).2
    ⟨(longest c rest).1, c :: rest.take n⟩ :: scan (rest.drop n)
termination_by text => text.length
decreasing_by simp only [List.length_drop, List.length_cons]; omega

/-- No character of the text is lost or moved. -/
theorem flatMap_text_scan (cs : List Char) : (scan cs).flatMap Lexeme.text = cs := by
  induction hn : cs.length using Nat.strongRecOn generalizing cs with
  | ind n ih =>
    cases cs with
    | nil => simp [scan]
    | cons c rest =>
      have hlt : (rest.drop (longest c rest).2).length < n := by
        rw [← hn, List.length_drop, List.length_cons]
        omega
      rw [scan, List.flatMap_cons, ih _ hlt _ rfl]
      simp

theorem text_ne_nil_of_mem_scan {cs : List Char} {l : Lexeme} (h : l ∈ scan cs) :
    l.text ≠ [] := by
  induction hn : cs.length using Nat.strongRecOn generalizing cs with
  | ind n ih =>
    cases cs with
    | nil => simp [scan] at h
    | cons c rest =>
      have hlt : (rest.drop (longest c rest).2).length < n := by
        rw [← hn, List.length_drop, List.length_cons]
        omega
      rw [scan, List.mem_cons] at h
      rcases h with rfl | h
      · simp
      · exact ih _ hlt h rfl

namespace Lexeme

def isSkipped (l : Lexeme) : Bool := l.kind == .blank || l.kind == .comment

def byteCount (l : Lexeme) : Nat := (String.ofList l.text).utf8ByteSize

/-- The value of an unsigned number, if sixty-four bits can hold it. -/
def number? (l : Lexeme) : Option Nat :=
  match l.kind with
  | .decimal => Text.positional? 10 l.text
  | .hex => Text.positional? 16 (l.text.drop 2)
  | .binary => Text.positional? 2 (l.text.drop 2)
  | _ => none

end Lexeme

/-- A lexeme with the bytes of the source that it covers. -/
structure Token where
  lexeme : Lexeme
  start : Nat
  stop : Nat
  deriving DecidableEq, Repr

/-- Lexemes at their places, the first of them at byte `start`; the skipped ones are left out. -/
def place (start : Nat) : List Lexeme → List Token
  | [] => []
  | l :: rest =>
    let stop := start + l.byteCount
    if l.isSkipped then place stop rest else ⟨l, start, stop⟩ :: place stop rest

def tokens (source : String) : List Token := place 0 (scan source.toList)

end RecordMachine.Table
