import RecordMachine.Layout
import RecordMachine.Text.Numeral
/-!
# Records

A record is a tag byte and a payload of five bytes, most significant byte first.
A stream of bytes is cut into whole records and a shorter remainder.
-/
namespace RecordMachine

structure Record where
  tag : UInt8
  b1 : UInt8
  b2 : UInt8
  b3 : UInt8
  b4 : UInt8
  b5 : UInt8
  deriving DecidableEq, Repr

namespace Record

def size : Nat := 6

def bytes (r : Record) : List UInt8 := [r.tag, r.b1, r.b2, r.b3, r.b4, r.b5]

/-- The record of a tag and the low forty bits of a payload. -/
def pack (tag : UInt8) (payload : Nat) : Record :=
  let bits := payload &&& Payload.full
  ⟨tag, (bits >>> 32).toUInt8, (bits >>> 24).toUInt8, (bits >>> 16).toUInt8,
    (bits >>> 8).toUInt8, bits.toUInt8⟩

def payload (r : Record) : Nat :=
  [r.b1, r.b2, r.b3, r.b4, r.b5].foldl (fun n b => n * 256 + b.toNat) 0

def split : List UInt8 → List Record × List UInt8
  | tag :: b1 :: b2 :: b3 :: b4 :: b5 :: rest =>
    let later := split rest
    (⟨tag, b1, b2, b3, b4, b5⟩ :: later.1, later.2)
  | remainder => ([], remainder)

/-- The records and the remainder hold the bytes of the stream in their order. -/
theorem flatMap_bytes_split (stream : List UInt8) :
    (split stream).1.flatMap bytes ++ (split stream).2 = stream := by
  fun_induction split stream with
  | case1 tag b1 b2 b3 b4 b5 rest later ih => simp [bytes, later, ih]
  | case2 => simp

theorem length_split_lt (stream : List UInt8) : (split stream).2.length < size := by
  fun_induction split stream with
  | case1 tag b1 b2 b3 b4 b5 rest later ih => exact ih
  | case2 remainder h =>
    match remainder with
    | [] | [_] | [_, _] | [_, _, _] | [_, _, _, _] | [_, _, _, _, _] => simp [size]
    | tag :: b1 :: b2 :: b3 :: b4 :: b5 :: rest =>
      exact absurd rfl (h tag b1 b2 b3 b4 b5 rest)

/-- How many records a stream of the given length holds, and how many bytes follow them. -/
def count (byteCount : Nat) : Nat × Nat := (byteCount / size, byteCount % size)

end Record

end RecordMachine
