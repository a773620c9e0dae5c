/-!
# Numerals

Digits read by position in a base up to sixteen, and the fixed-width forms in
which offsets, tags and bytes are printed.
-/
namespace RecordMachine.Text

/-- The value of a digit; letters of either case count on from ten. -/
def digitValue (c : Char) : Nat :=
  if 'a' ≤ c ∧ c ≤ 'f' then c.toNat - 'a'.toNat + 10
  else if 'A' ≤ c ∧ c ≤ 'F' then c.toNat - 'A'.toNat + 10
  else c.toNat - '0'.toNat

def positional (base : Nat) (digits : List Char) : Nat :=
  digits.foldl (fun n c => n * base + digitValue c) 0

/-- One more than the largest number that sixty-four bits can hold. -/
def wordLimit : Nat := 1 <<< 64

def appendDigit? (base n : Nat) (c : Char) : Option Nat :=
  if n * base + digitValue c < wordLimit then some (n * base + digitValue c) else none

/-- The number that the digits spell, given up at the first digit that does not fit. -/
def positional? (base : Nat) (digits : List Char) : Option Nat :=
  digits.foldlM (appendDigit? base) 0

theorem le_foldl_digits {base : Nat} (hb : 0 < base) (digits : List Char) (n : Nat) :
    n ≤ digits.foldl (fun n c => n * base + digitValue c) n := by
  induction digits generalizing n with
  | nil => exact Nat.le_refl n
  | cons c rest ih =>
    have hn : n ≤ n * base + digitValue c := by
      have := Nat.le_mul_of_pos_right n hb
      omega
    exact Nat.le_trans hn (ih _)

theorem foldlM_appendDigit? {base : Nat} (hb : 0 < base) (digits : List Char) {n : Nat}
    (hn : n < wordLimit) :
    digits.foldlM (appendDigit? base) n =
      let value := digits.foldl (fun n c => n * base + digitValue c) n
      if value < wordLimit then some value else none := by
  induction digits generalizing n with
  | nil => simp [hn]
  | cons c rest ih =>
    rw [List.foldlM_cons, List.foldl_cons]
    by_cases hc : n * base + digitValue c < wordLimit
    · have hs : appendDigit? base n c = some (n * base + digitValue c) := by
        simp [appendDigit?, hc]
      rw [hs, Option.bind_eq_bind, Option.bind_some]
      exact ih hc
    · have hs : appendDigit? base n c = none := by simp [appendDigit?, hc]
      have hl := le_foldl_digits hb rest (n * base + digitValue c)
      have hv : ¬ rest.foldl (fun n c => n * base + digitValue c)
          (n * base + digitValue c) < wordLimit := by omega
      rw [hs, Option.bind_eq_bind, Option.bind_none]
      exact (if_neg hv).symm

def alignRight (width : Nat) (text : String) : String :=
  String.ofList (List.leftpad width ' ' text.toList)

def alignLeft (width : Nat) (text : String) : String :=
  String.ofList (List.rightpad width ' ' text.toList)

/-- A hexadecimal number of at least `width` lower-case digits after its `0x`. -/
def hex (width n : Nat) : String :=
  "0x" ++ String.ofList (List.leftpad width '0' (Nat.toDigits 16 n))

def hexByte (b : UInt8) : List Char :=
  (List.leftpad 2 '0' (Nat.toDigits 16 b.toNat)).map Char.toUpper

def hexBytes (bytes : List UInt8) : String :=
  String.ofList (List.intercalate [' '] (bytes.map hexByte))

end RecordMachine.Text
