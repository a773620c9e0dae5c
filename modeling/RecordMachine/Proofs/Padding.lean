import RecordMachine.Proofs.Codec
/-!
# Padding

Strict decoding inverts encoding. Plain decoding does not see the padding: it
reads a record as the one instruction whose record differs from it in padding
bits only.
-/
namespace RecordMachine

namespace Instruction

theorem record_injective {i j : Instruction} (h : i.record = j.record) : i = j := by
  have hi := Record.decode_record i
  rw [h, Record.decode_record j] at hi
  exact (Except.ok.inj hi).symm

end Instruction

namespace Record

/-- The record without the payload bits that no operand of the opcode owns. -/
def clearPadding (opcode : Opcode) (r : Record) : Record :=
  pack r.tag (Payload.clear opcode.padding r.payload)

theorem ofTag?_of_decode {r : Record} {i : Instruction} (h : r.decode = .ok i) :
    Opcode.ofTag? r.tag = some i.opcode := by
  rw [(decode_eq_ok_iff.mp h).1]
  exact Opcode.ofTag?_tag i.opcode

theorem record_of_decode {r : Record} {i : Instruction} (h : r.decode = .ok i) :
    i.record = r.clearPadding i.opcode := by
  obtain ⟨ht, hv⟩ := decode_eq_ok_iff.mp h
  rw [Instruction.record, hv, Payload.gather_extract r.payload_le_full, ← ht]
  rfl

theorem decode_eq_ok_iff_clearPadding {r : Record} {i : Instruction} :
    r.decode = .ok i ↔
      ∃ opcode, Opcode.ofTag? r.tag = some opcode ∧ i.record = r.clearPadding opcode := by
  constructor
  · intro h
    exact ⟨i.opcode, ofTag?_of_decode h, record_of_decode h⟩
  · rintro ⟨opcode, ht, hr⟩
    obtain ⟨j, hj, rfl, -⟩ := exists_decode ht
    rw [Instruction.record_injective (hr.trans (record_of_decode hj).symm)]
    exact hj

theorem decode_eq_error_iff {r : Record} {error : CodecError} :
    r.decode = .error error ↔ Opcode.ofTag? r.tag = none ∧ error = .unknownTag r.tag := by
  constructor
  · exact tag_of_decode_error
  · rintro ⟨ht, rfl⟩
    rw [decode, ht]

theorem decodeStrict_of_decode {r : Record} {i : Instruction} (h : r.decode = .ok i) :
    r.decodeStrict =
      if r.payload &&& i.opcode.padding = 0 then .ok i
      else .error (.paddingSet i.opcode (r.payload &&& i.opcode.padding)) := by
  rw [decodeStrict, h]
  rfl

theorem decodeStrict_eq_error_iff {r : Record} {i : Instruction} (h : r.decode = .ok i)
    {error : CodecError} :
    r.decodeStrict = .error error ↔
      r.payload &&& i.opcode.padding ≠ 0 ∧
        error = .paddingSet i.opcode (r.payload &&& i.opcode.padding) := by
  rw [decodeStrict_of_decode h]
  split
  next hp => simp [hp]
  next hp => simp [hp, eq_comm]

/-- Strict decoding and encoding are inverse to each other, and plain decoding is strict decoding
of the record without its padding. An unknown tag is the only fault for the one, and a padding bit
that is set the only further fault for the other. -/
theorem decode_encode_iff (r : Record) (i : Instruction) :
    (r.decodeStrict = .ok i ↔ i.encode = .ok r) ∧
    (r.decode = .ok i ↔
      ∃ opcode, Opcode.ofTag? r.tag = some opcode ∧ i.encode = .ok (r.clearPadding opcode)) ∧
    (∃ s, i.encode = .ok s) ∧
    (∀ error, r.decode = .error error ↔
      Opcode.ofTag? r.tag = none ∧ error = .unknownTag r.tag) ∧
    ∀ error, r.decode = .ok i ∧ r.decodeStrict = .error error ↔
      r.decode = .ok i ∧ r.payload &&& i.opcode.padding ≠ 0 ∧
        error = .paddingSet i.opcode (r.payload &&& i.opcode.padding) := by
  refine ⟨?_, ?_, ⟨i.record, i.encode_eq⟩, fun error => decode_eq_error_iff, ?_⟩
  · rw [decodeStrict_eq_ok_iff_record, i.encode_eq, Except.ok.injEq, eq_comm]
  · rw [decode_eq_ok_iff_clearPadding]
    simp only [i.encode_eq, Except.ok.injEq]
  · intro error
    exact and_congr_right fun h => decodeStrict_eq_error_iff h

end Record

end RecordMachine
