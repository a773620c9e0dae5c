import RecordMachine.Proofs.Padding
import RecordMachine.Proofs.Stream
/-!
# Programs and their streams

Reading a stream as a program, listing it, and writing a program are three
traversals. They agree on what a stream means up to padding, and the two that
read stop at the same record.
-/
namespace RecordMachine

namespace Record

def withoutPadding (r : Record) : Record :=
  match Opcode.ofTag? r.tag with
  | some opcode => r.clearPadding opcode
  | none => r

theorem decode_eq_ok_iff_withoutPadding {r : Record} {i : Instruction} :
    r.decode = .ok i ↔ r.withoutPadding = i.record := by
  rw [decode_eq_ok_iff_clearPadding, withoutPadding]
  cases ht : Opcode.ofTag? r.tag with
  | some opcode => simp [eq_comm]
  | none =>
    -- A record that is kept as it is for its unknown tag is no instruction's record.
    have hne : r ≠ i.record := by
      rintro rfl
      rw [i.tag_record, Opcode.ofTag?_tag] at ht
      cases ht
    simp [hne]

end Record

namespace Program

def clearPadding (bytes : List UInt8) : List UInt8 :=
  (Record.split bytes).1.flatMap (fun r => r.withoutPadding.bytes) ++ (Record.split bytes).2

/-- In the stream, `r` stands behind the records `before`, and its tag is the first that no opcode
has. -/
def IsFirstUnknown (bytes : List UInt8) (before : List Record) (r : Record) : Prop :=
  (∃ rest, bytes = before.flatMap Record.bytes ++ r.bytes ++ rest) ∧
    (∀ s ∈ before, ∃ opcode, Opcode.ofTag? s.tag = some opcode) ∧ Opcode.ofTag? r.tag = none

theorem ofBytes_eq (bytes : List UInt8) :
    ofBytes bytes =
      if bytes.length % Record.size = 0 then (Record.split bytes).1.mapM Record.decode
      else .error (.partialRecord bytes.length) := by
  rw [ofBytes, ← Record.length_split]
  cases Record.split bytes with
  | mk records tail =>
    cases tail with
    | nil => rfl
    | cons b tail => rfl

theorem split_snd_eq_nil_iff {bytes : List UInt8} :
    (Record.split bytes).2 = [] ↔ bytes.length % Record.size = 0 := by
  rw [← Record.length_split, List.length_eq_zero_iff]

theorem ofBytes_eq_ok_iff {bytes : List UInt8} {p : Program} :
    ofBytes bytes = .ok p ↔
      (Record.split bytes).2 = [] ∧ (Record.split bytes).1.map Record.decode = p.map .ok := by
  rw [ofBytes_eq, split_snd_eq_nil_iff]
  split
  next h => rw [Traversal.mapM_eq_ok_iff, and_iff_right h]
  next h => simp [h]

theorem ofBytes_eq_ok_iff_program {bytes : List UInt8} {p : Program} :
    ofBytes bytes = .ok p ↔ Listing.program bytes false = .ok p := by
  rw [ofBytes_eq_ok_iff, Listing.program_eq_ok_iff]
  rfl

theorem stream_of_ofBytes {bytes : List UInt8} {p : Program} (h : ofBytes bytes = .ok p) :
    p.stream = clearPadding bytes := by
  obtain ⟨ht, hr⟩ := ofBytes_eq_ok_iff.mp h
  have hs : (Record.split bytes).1.map Record.withoutPadding = p.map Instruction.record :=
    (Traversal.map_eq_map_iff fun r i => Record.decode_eq_ok_iff_withoutPadding).mp hr
  rw [stream, ← hs, clearPadding, ht, List.append_nil, List.flatMap_map]

theorem exists_decode_iff {r : Record} :
    (∃ i, r.decode = .ok i) ↔ ∃ opcode, Opcode.ofTag? r.tag = some opcode := by
  constructor
  · rintro ⟨i, hi⟩
    exact ⟨i.opcode, Record.ofTag?_of_decode hi⟩
  · rintro ⟨opcode, ht⟩
    obtain ⟨i, hi, -⟩ := Record.exists_decode ht
    exact ⟨i, hi⟩

theorem isFirstUnknown_iff {bytes : List UInt8} {before : List Record} {r : Record} :
    IsFirstUnknown bytes before r ↔
      (∃ after, (Record.split bytes).1 = before ++ r :: after) ∧
        (∀ s ∈ before, ∃ i, s.decode = .ok i) ∧ Opcode.ofTag? r.tag = none := by
  have hplace : (∃ rest, bytes = before.flatMap Record.bytes ++ r.bytes ++ rest) ↔
      ∃ after, (Record.split bytes).1 = before ++ r :: after := by
    constructor
    · rintro ⟨rest, rfl⟩
      rw [List.append_assoc, Record.split_flatMap_append, Record.split_bytes_append]
      exact ⟨_, rfl⟩
    · rintro ⟨after, ha⟩
      have hb := Record.flatMap_bytes_split bytes
      rw [ha, List.flatMap_append, List.flatMap_cons, List.append_assoc, List.append_assoc,
        ← List.append_assoc] at hb
      exact ⟨_, hb.symm⟩
  simp only [IsFirstUnknown, hplace, exists_decode_iff]

theorem mapM_decode_eq_error_iff {bytes : List UInt8} {error : CodecError} :
    (Record.split bytes).1.mapM Record.decode = .error error ↔
      ∃ before r, IsFirstUnknown bytes before r ∧ error = .unknownTag r.tag := by
  rw [Traversal.mapM_eq_error_iff]
  constructor
  · rintro ⟨before, r, after, hs, hb, hr⟩
    obtain ⟨ht, he⟩ := Record.decode_eq_error_iff.mp hr
    exact ⟨before, r, isFirstUnknown_iff.mpr ⟨⟨after, hs⟩, hb, ht⟩, he⟩
  · rintro ⟨before, r, hf, he⟩
    obtain ⟨⟨after, hs⟩, hb, ht⟩ := isFirstUnknown_iff.mp hf
    exact ⟨before, r, after, hs, hb, Record.decode_eq_error_iff.mpr ⟨ht, he⟩⟩

theorem program_of_isFirstUnknown {bytes : List UInt8} {before : List Record} {r : Record}
    (h : IsFirstUnknown bytes before r) :
    Listing.program bytes false =
      .error (.badRecord (before.length * Record.size) (.unknownTag r.tag)) := by
  obtain ⟨⟨after, hs⟩, hb, ht⟩ := isFirstUnknown_iff.mp h
  have hr := Record.decode_eq_error_iff.mpr ⟨ht, rfl⟩
  rw [Listing.program, Listing.collect_eq_mapM, Listing.lines_eq, hs, List.zipIdx_append,
    List.zipIdx_cons, List.map_append, List.map_cons, List.append_assoc, List.cons_append,
    Nat.zero_add, Traversal.mapM_eq_error_iff]
  refine ⟨_, _, _, rfl, ?_, ?_⟩
  · intro line hl
    obtain ⟨⟨s, index⟩, hm, rfl⟩ := List.mem_map.mp hl
    obtain ⟨i, hi⟩ := hb s (List.fst_mem_of_mem_zipIdx hm)
    exact ⟨i, Listing.Line.outcome_eq_ok_iff.mpr ((Listing.content_recordLine index).mpr hi)⟩
  · simp only [Listing.Line.outcome, Listing.recordLine, Bool.false_eq_true, if_false, hr]

/-- Strict reading of a stream inverts writing it, and plain reading is reading without the
padding. A stream is refused for its length or else for the first unknown tag in it, at whose
record listing the stream stops, too. -/
theorem stream_codecs_agree (bytes : List UInt8) (p : Program) :
    (Listing.program bytes true = .ok p ↔ p.toBytes = .ok bytes) ∧
    (ofBytes bytes = .ok p ↔ Listing.program bytes false = .ok p) ∧
    (ofBytes bytes = .ok p → p.toBytes = .ok (clearPadding bytes)) ∧
    (∃ records, p.records = .ok records ∧ p.toBytes = .ok (records.flatMap Record.bytes) ∧
      (records.flatMap Record.bytes).length = p.length * Record.size) ∧
    ∀ error, ofBytes bytes = .error error ↔
      bytes.length % Record.size ≠ 0 ∧ error = .partialRecord bytes.length ∨
      bytes.length % Record.size = 0 ∧ ∃ before r, IsFirstUnknown bytes before r ∧
        error = .unknownTag r.tag ∧ Listing.program bytes false =
          .error (.badRecord (before.length * Record.size) (.unknownTag r.tag)) := by
  refine ⟨?_, ofBytes_eq_ok_iff_program, ?_, ?_, ?_⟩
  · rw [Listing.program_strict_eq_ok_iff, toBytes_eq, Except.ok.injEq, eq_comm]
  · intro h
    rw [toBytes_eq, stream_of_ofBytes h]
  · refine ⟨p.map Instruction.record, p.records_eq, p.toBytes_eq, ?_⟩
    rw [Record.length_flatMap_bytes, List.length_map]
  · intro error
    rw [ofBytes_eq]
    split
    next hl =>
      rw [mapM_decode_eq_error_iff]
      constructor
      · rintro ⟨before, r, hf, he⟩
        exact .inr ⟨hl, before, r, hf, he, program_of_isFirstUnknown hf⟩
      · rintro (⟨hne, -⟩ | ⟨-, before, r, hf, he, -⟩)
        · exact absurd hl hne
        · exact ⟨before, r, hf, he⟩
    next hl => simp [hl, eq_comm]

end Program

end RecordMachine
