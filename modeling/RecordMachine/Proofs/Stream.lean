import RecordMachine.Listing
import RecordMachine.Proofs.Codec
import RecordMachine.Proofs.Traversal
/-!
# Streams of records

A stream is cut into records at every sixth byte, so the records of a program
come back one by one.
-/
namespace RecordMachine

namespace Record

theorem length_bytes (r : Record) : r.bytes.length = size := rfl

theorem split_nil : split [] = ([], []) := rfl

theorem split_bytes_append (r : Record) (rest : List UInt8) :
    split (r.bytes ++ rest) = (r :: (split rest).1, (split rest).2) := rfl

theorem exists_bytes_append {stream : List UInt8} (h : size ≤ stream.length) :
    ∃ r rest, stream = bytes r ++ rest := by
  match stream, h with
  | tag :: b1 :: b2 :: b3 :: b4 :: b5 :: rest, _ => exact ⟨⟨tag, b1, b2, b3, b4, b5⟩, rest, rfl⟩

theorem split_flatMap_append (records : List Record) (rest : List UInt8) :
    split (records.flatMap bytes ++ rest) = (records ++ (split rest).1, (split rest).2) := by
  induction records with
  | nil => rfl
  | cons r records ih =>
    rw [List.flatMap_cons, List.append_assoc, split_bytes_append, ih]
    rfl

theorem length_flatMap_bytes (records : List Record) :
    (records.flatMap bytes).length = records.length * size := by
  induction records with
  | nil => rfl
  | cons r records ih =>
    rw [List.flatMap_cons, List.length_append, ih, length_bytes, List.length_cons, Nat.succ_mul,
      Nat.add_comm]

theorem length_split (stream : List UInt8) : (split stream).2.length = stream.length % size := by
  have hlt := length_split_lt stream
  have hlen := congrArg List.length (flatMap_bytes_split stream)
  rw [List.length_append, length_flatMap_bytes] at hlen
  rw [← hlen, Nat.mul_add_mod_self_right, Nat.mod_eq_of_lt hlt]

theorem length_fst_split (stream : List UInt8) :
    (split stream).1.length = stream.length / size := by
  have hlt := length_split_lt stream
  have hlen := congrArg List.length (flatMap_bytes_split stream)
  rw [List.length_append, length_flatMap_bytes] at hlen
  simp only [size] at *
  omega

theorem getElem?_split {stream : List UInt8} {k : Nat} {r : Record} {rest : List UInt8}
    (h : stream.drop (k * size) = r.bytes ++ rest) : (split stream).1[k]? = some r := by
  induction k generalizing stream with
  | zero =>
    rw [Nat.zero_mul, List.drop_zero] at h
    rw [h, split_bytes_append]
    rfl
  | succ k ih =>
    have hlen : size ≤ stream.length := by
      have hl := congrArg List.length h
      rw [List.length_drop, List.length_append, length_bytes, Nat.succ_mul] at hl
      omega
    obtain ⟨r', rest', rfl⟩ := exists_bytes_append hlen
    rw [Nat.succ_mul, Nat.add_comm, ← List.drop_drop, ← length_bytes r', List.drop_left] at h
    rw [split_bytes_append, List.getElem?_cons_succ]
    exact ih h

end Record

namespace Program

theorem records_eq (p : Program) : p.records = .ok (p.map Instruction.record) := by
  induction p with
  | nil => rfl
  | cons i p ih =>
    rw [records] at ih ⊢
    rw [List.mapM_cons, i.encode_eq, ih]
    rfl

def stream (p : Program) : List UInt8 := (p.map Instruction.record).flatMap Record.bytes

theorem toBytes_eq (p : Program) : p.toBytes = .ok p.stream := by
  induction p with
  | nil => rfl
  | cons i p ih =>
    rw [toBytes, i.encode_eq, ih]
    rfl

theorem length_stream (p : Program) : p.stream.length = p.length * Record.size := by
  rw [stream, Record.length_flatMap_bytes, List.length_map]

theorem split_stream (p : Program) : Record.split p.stream = (p.map Instruction.record, []) := by
  have h := Record.split_flatMap_append (p.map Instruction.record) []
  rwa [Record.split_nil, List.append_nil, List.append_nil] at h

end Program

namespace Listing

def Line.instruction? (line : Line) : Option Instruction :=
  match line.content with
  | .instruction i => some i
  | .undecodable _ | .tail => none

/-- The instructions of the lines, each with the index of its line. -/
def recognised (lines : List Line) : List (Nat × Instruction) :=
  lines.zipIdx.filterMap fun (line, index) => line.instruction?.map (index, ·)

theorem Line.instruction?_eq_some_iff {line : Line} {i : Instruction} :
    line.instruction? = some i ↔ line.content = .instruction i := by
  unfold Line.instruction?
  cases line.content <;> simp

/-- What a line contributes to the program of its stream. -/
def Line.outcome (line : Line) : Except Error Instruction :=
  match line.content with
  | .instruction i => .ok i
  | .undecodable error => .error (.badRecord line.offset error)
  | .tail => .error (.shortTail line.offset line.bytes.length)

theorem Line.outcome_eq_ok_iff {line : Line} {i : Instruction} :
    line.outcome = .ok i ↔ line.content = .instruction i := by
  unfold Line.outcome
  cases line.content <;> simp

theorem collect_eq_mapM (lines : List Line) : collect lines = lines.mapM Line.outcome := by
  induction lines with
  | nil => rfl
  | cons line lines ih =>
    rw [collect, List.mapM_cons, ih, Line.outcome]
    cases line.content <;> rfl

theorem collect_eq_ok_iff {lines : List Line} {p : Program} :
    collect lines = .ok p ↔ lines.map Line.content = p.map Content.instruction := by
  rw [collect_eq_mapM, Traversal.mapM_eq_ok_iff]
  exact Traversal.map_eq_map_iff fun line i => Line.outcome_eq_ok_iff

theorem map_snd_recognised {lines : List Line} {p : Program}
    (h : lines.map Line.content = p.map Content.instruction) :
    (recognised lines).map Prod.snd = p := by
  unfold recognised
  generalize 0 = n
  induction lines generalizing p n with
  | nil => exact (List.map_eq_nil_iff.mp h.symm).symm
  | cons line lines ih =>
    cases p with
    | nil => cases h
    | cons i p =>
      obtain ⟨hi, hp⟩ := List.cons.inj h
      rw [List.zipIdx_cons, List.filterMap_cons]
      simp only [Line.instruction?_eq_some_iff.mpr hi, Option.map_some, List.map_cons, ih hp]

def decoder (strict : Bool) (r : Record) : Except CodecError Instruction :=
  if strict then r.decodeStrict else r.decode

theorem decoder_record (strict : Bool) (i : Instruction) : decoder strict i.record = .ok i := by
  cases strict with
  | false => exact Record.decode_record i
  | true => exact Record.decodeStrict_eq_ok_iff_record.mpr rfl

theorem content_recordLine {strict : Bool} {r : Record} {i : Instruction} (index : Nat) :
    (recordLine strict r index).content = .instruction i ↔ decoder strict r = .ok i := by
  simp only [recordLine, decoder]
  cases if strict then r.decodeStrict else r.decode with
  | error e => simp
  | ok j => simp

theorem map_content_recordLine {strict : Bool} {records : List Record} {p : Program} {n : Nat} :
    ((records.zipIdx n).map fun (r, index) => recordLine strict r index).map Line.content =
        p.map Content.instruction ↔
      records.map (decoder strict) = p.map .ok := by
  have hfst := congrArg (List.map (decoder strict)) (List.zipIdx_map_fst n records)
  rw [List.map_map] at hfst
  rw [← hfst, List.map_map]
  exact Traversal.map_eq_map_iff fun x i => content_recordLine x.2

theorem lines_eq (bytes : List UInt8) (strict : Bool) :
    lines bytes strict =
      ((Record.split bytes).1.zipIdx.map fun (r, index) => recordLine strict r index) ++
        if (Record.split bytes).2.isEmpty then []
        else [⟨bytes.length - (Record.split bytes).2.length, (Record.split bytes).2, .tail⟩] := by
  rw [lines]
  cases Record.split bytes with
  | mk records tail =>
    cases tail with
    | nil => exact (List.append_nil _).symm
    | cons b tail => rfl

theorem getElem?_lines_eq_some_iff {bytes : List UInt8} {strict : Bool} {k : Nat} {line : Line} :
    (lines bytes strict)[k]? = some line ↔
      (∃ r, (Record.split bytes).1[k]? = some r ∧ line = recordLine strict r k) ∨
        ((Record.split bytes).2 ≠ [] ∧ k = (Record.split bytes).1.length ∧
          line = ⟨k * Record.size, (Record.split bytes).2, .tail⟩) := by
  have hoffset : bytes.length - (Record.split bytes).2.length =
      (Record.split bytes).1.length * Record.size := by
    have hlen := congrArg List.length (Record.flatMap_bytes_split bytes)
    rw [List.length_append, Record.length_flatMap_bytes] at hlen
    omega
  rw [lines_eq, hoffset]
  generalize (Record.split bytes).1 = records
  generalize (Record.split bytes).2 = tail
  by_cases hk : k < records.length
  · rw [List.getElem?_append_left (by simpa using hk)]
    have hne : k ≠ records.length := Nat.ne_of_lt hk
    simp [hk, hne, eq_comm]
  · have hnone : records[k]? = none := List.getElem?_eq_none (Nat.le_of_not_lt hk)
    rw [List.getElem?_append_right (by simpa using hk), hnone]
    cases tail with
    | nil => simp
    | cons b tail =>
      by_cases he : k = records.length
      · simp [he, eq_comm]
      · have hpos : k - records.length ≠ 0 := by omega
        simp [he, hpos]

theorem program_eq_ok_iff {bytes : List UInt8} {strict : Bool} {p : Program} :
    program bytes strict = .ok p ↔
      (Record.split bytes).2 = [] ∧ (Record.split bytes).1.map (decoder strict) = p.map .ok := by
  rw [program, collect_eq_ok_iff, lines_eq]
  cases ht : (Record.split bytes).2 with
  | nil =>
    rw [List.isEmpty_nil, if_pos rfl, List.append_nil, map_content_recordLine]
    exact (and_iff_right rfl).symm
  | cons b tail =>
    constructor
    · intro h
      have hm : Content.tail ∈ p.map Content.instruction := by
        rw [← h]
        simp
      obtain ⟨i, -, hi⟩ := List.mem_map.mp hm
      cases hi
    · rintro ⟨h, -⟩
      cases h

theorem program_stream (p : Program) (strict : Bool) : program p.stream strict = .ok p := by
  rw [program_eq_ok_iff, Program.split_stream, List.map_map]
  exact ⟨rfl, List.map_congr_left fun i _ => decoder_record strict i⟩

theorem content_lines_stream (p : Program) (strict : Bool) :
    (lines p.stream strict).map Line.content = p.map Content.instruction :=
  collect_eq_ok_iff.mp (program_stream p strict)

theorem program_strict_eq_ok_iff {bytes : List UInt8} {p : Program} :
    program bytes true = .ok p ↔ bytes = p.stream := by
  constructor
  · intro h
    obtain ⟨ht, hr⟩ := program_eq_ok_iff.mp h
    have hs : (Record.split bytes).1.map id = p.map Instruction.record :=
      (Traversal.map_eq_map_iff fun r i => Record.decodeStrict_eq_ok_iff_record).mp hr
    have hb := Record.flatMap_bytes_split bytes
    rw [ht, List.append_nil, ← List.map_id (Record.split bytes).1, hs] at hb
    exact hb.symm
  · rintro rfl
    exact program_stream p true

end Listing

end RecordMachine
