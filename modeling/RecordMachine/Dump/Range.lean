import RecordMachine.Text.Blank
import RecordMachine.Text.Numeral
/-!
# Address ranges

A range names its first and its last address. It is written `12-17` or
`12..=17`, or `12..18` with the address after the last.
-/
namespace RecordMachine

structure AddressRange where
  start : UInt64
  stop : UInt64
  deriving DecidableEq, Repr

namespace AddressRange

/-- The number of addresses, in arithmetic that stops at the largest number of sixty-four bits. -/
def length (r : AddressRange) : Nat :=
  min (r.stop.toNat + 1) (Text.wordLimit - 1) - r.start.toNat

def isEmpty (r : AddressRange) : Bool := r.length == 0

def display (r : AddressRange) : String := s!"{r.start.toNat}-{r.stop.toNat}"

/-- The texts before and after the first occurrence of a separator. -/
def cut? (separator : List Char) : List Char → Option (List Char × List Char)
  | [] => none
  | c :: rest =>
    if separator.isPrefixOf (c :: rest) then some ([], (c :: rest).drop separator.length)
    else (cut? separator rest).map fun (before, after) => (c :: before, after)

/-- A number of sixty-four bits: digits, perhaps after a plus sign. -/
def unsigned? (text : List Char) : Option UInt64 :=
  let digits :=
    match text with
    | '+' :: digits => digits
    | digits => digits
  if digits.isEmpty || !digits.all Char.isDigit then none
  else (Text.positional? 10 digits).map Nat.toUInt64

def address? (text : List Char) : Option UInt64 := unsigned? (Text.trim text)

/-- The two ends of a range, and whether the second one belongs to it. -/
def ends? (text : List Char) : Option (List Char × List Char × Bool) :=
  match cut? ['.', '.', '='] text with
  | some (first, last) => some (first, last, true)
  | none =>
    match cut? ['.', '.'] text with
    | some (first, last) => some (first, last, false)
    | none =>
      match cut? ['-'] text with
      | some (first, last) => some (first, last, true)
      | none => none

def ofText? (text : String) : Option AddressRange := do
  let (first, last, inclusive) ← ends? (Text.trim text.toList)
  let start ← address? first
  let stop ← address? last
  if inclusive then return ⟨start, stop⟩
  else if stop = 0 then none
  else return ⟨start, stop - 1⟩

end AddressRange

structure RangeError where
  text : String
  deriving DecidableEq, Repr

def RangeError.message (e : RangeError) : String :=
  s!"invalid range '{e.text}': expected START-END, START..END or START..=END"

def AddressRange.ofText (text : String) : Except RangeError AddressRange :=
  match ofText? text with
  | some range => .ok range
  | none => .error ⟨text⟩

end RecordMachine
