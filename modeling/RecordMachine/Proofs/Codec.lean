import RecordMachine.Proofs.Payload
/-!
# Instructions and their records

Every instruction has one record, which strict decoding inverts. Plain decoding
fails on unknown tags only.
-/
namespace RecordMachine

namespace Record

theorem payload_eq (r : Record) :
    r.payload = r.b1.toNat * 4294967296 + r.b2.toNat * 16777216 + r.b3.toNat * 65536 +
      r.b4.toNat * 256 + r.b5.toNat := by
  simp only [payload, List.foldl_cons, List.foldl_nil]
  omega

theorem and_full (n : Nat) : n &&& Payload.full = n % 1099511627776 :=
  Nat.and_two_pow_sub_one_eq_mod n 40

theorem payload_le_full (r : Record) : r.payload ≤ Payload.full := by
  have h1 := r.b1.toNat_lt
  have h2 := r.b2.toNat_lt
  have h3 := r.b3.toNat_lt
  have h4 := r.b4.toNat_lt
  have h5 := r.b5.toNat_lt
  have hfull : Payload.full = 1099511627775 := rfl
  rw [payload_eq, hfull]
  omega

theorem payload_pack (tag : UInt8) (n : Nat) : (pack tag n).payload = n &&& Payload.full := by
  rw [payload_eq, pack, and_full]
  simp only [Nat.toUInt8_eq, UInt8.toNat_ofNat', Nat.shiftRight_eq_div_pow]
  omega

theorem pack_payload (r : Record) : pack r.tag r.payload = r := by
  have h1 := r.b1.toNat_lt
  have h2 := r.b2.toNat_lt
  have h3 := r.b3.toNat_lt
  have h4 := r.b4.toNat_lt
  have h5 := r.b5.toNat_lt
  have hp := r.payload_eq
  cases r with
  | mk tag b1 b2 b3 b4 b5 =>
    simp only [pack, and_full, Record.mk.injEq, true_and, ← UInt8.toNat_inj, Nat.toUInt8_eq,
      UInt8.toNat_ofNat', Nat.shiftRight_eq_div_pow]
    simp only at h1 h2 h3 h4 h5 hp
    refine ⟨?_, ?_, ?_, ?_, ?_⟩ <;> omega

end Record

namespace Opcode

theorem ofTag?_tag (opcode : Opcode) : ofTag? opcode.tag = some opcode := by
  cases opcode <;> rfl

theorem tag_of_ofTag? {tag : UInt8} {opcode : Opcode} (h : ofTag? tag = some opcode) :
    opcode.tag = tag := by
  have hp := List.find?_some h
  exact eq_of_beq hp

theorem pairwise_operands (opcode : Opcode) : opcode.operands.Pairwise Operand.Disjoint := by
  have h : opcode.operands.Pairwise (fun f g => g.shift + g.width ≤ f.shift) := by
    cases opcode <;> decide
  exact h.imp Operand.disjoint_of_below

theorem width_add_shift_le (opcode : Opcode) : ∀ f ∈ opcode.operands, f.width + f.shift ≤ 40 := by
  cases opcode <;> decide

end Opcode

namespace Instruction

theorem length_values (i : Instruction) : i.values.length = i.opcode.operands.length := by
  cases i <;> rfl

theorem fits_values (i : Instruction) : Operand.Fits i.opcode.operands i.values := by
  cases i with
  | loadConst dst imm =>
    exact ⟨Nat.le_of_lt_succ dst.toNat_lt, Nat.le_of_lt_succ imm.toNat_lt, trivial⟩
  | readMem dst addr =>
    exact ⟨Nat.le_of_lt_succ dst.toNat_lt, Nat.le_of_lt_succ addr.toNat_lt, trivial⟩
  | writeMem addr src =>
    exact ⟨Nat.le_of_lt_succ addr.toNat_lt, Nat.le_of_lt_succ src.toNat_lt, trivial⟩
  | mod dstAddr aReg bReg =>
    exact ⟨Nat.le_of_lt_succ dstAddr.toNat_lt, Nat.le_of_lt_succ aReg.toNat_lt,
      Nat.le_of_lt_succ bReg.toNat_lt, trivial⟩

theorem ofValues_values (i : Instruction) : ofValues i.opcode i.values = .ok i := by
  have hc := Operand.checkAll_eq_ok_iff.mpr i.fits_values
  cases i <;>
  · simp only [opcode, values] at hc
    simp [ofValues, opcode, values, hc, bind, Except.bind, pure, Except.pure]

private theorem toNat_toUInt8 {n : Nat} (h : n ≤ 255) : n.toUInt8.toNat = n :=
  UInt8.toNat_ofNat_of_lt' (Nat.lt_succ_of_le h)

private theorem toNat_toUInt16 {n : Nat} (h : n ≤ 65535) : n.toUInt16.toNat = n :=
  UInt16.toNat_ofNat_of_lt' (Nat.lt_succ_of_le h)

private theorem toNat_toUInt32 {n : Nat} (h : n ≤ 4294967295) : n.toUInt32.toNat = n :=
  UInt32.toNat_ofNat_of_lt' (Nat.lt_succ_of_le h)

theorem exists_ofValues {opcode : Opcode} {ns : List Nat}
    (hl : ns.length = opcode.operands.length) (hf : Operand.Fits opcode.operands ns) :
    ∃ i, ofValues opcode ns = .ok i ∧ i.opcode = opcode ∧ i.values = ns := by
  have hc := Operand.checkAll_eq_ok_iff.mpr hf
  cases opcode with
  | loadConst =>
    match ns, hl with
    | [dst, imm], _ =>
      obtain ⟨hd, hi, -⟩ := hf
      refine ⟨.loadConst dst.toUInt8 imm.toUInt32, ?_, rfl, ?_⟩
      · simp only [ofValues, hc, bind, Except.bind, pure, Except.pure]
      · rw [values, toNat_toUInt8 hd, toNat_toUInt32 hi]
  | readMem =>
    match ns, hl with
    | [dst, addr], _ =>
      obtain ⟨hd, ha, -⟩ := hf
      refine ⟨.readMem dst.toUInt8 addr.toUInt16, ?_, rfl, ?_⟩
      · simp only [ofValues, hc, bind, Except.bind, pure, Except.pure]
      · rw [values, toNat_toUInt8 hd, toNat_toUInt16 ha]
  | writeMem =>
    match ns, hl with
    | [addr, src], _ =>
      obtain ⟨ha, hs, -⟩ := hf
      refine ⟨.writeMem addr.toUInt16 src.toUInt8, ?_, rfl, ?_⟩
      · simp only [ofValues, hc, bind, Except.bind, pure, Except.pure]
      · rw [values, toNat_toUInt16 ha, toNat_toUInt8 hs]
  | mod =>
    match ns, hl with
    | [dstAddr, aReg, bReg], _ =>
      obtain ⟨hd, ha, hb, -⟩ := hf
      refine ⟨.mod dstAddr.toUInt16 aReg.toUInt8 bReg.toUInt8, ?_, rfl, ?_⟩
      · simp only [ofValues, hc, bind, Except.bind, pure, Except.pure]
      · rw [values, toNat_toUInt16 hd, toNat_toUInt8 ha, toNat_toUInt8 hb]

theorem eq_of_values_eq {i j : Instruction} (ho : i.opcode = j.opcode) (hv : i.values = j.values) :
    i = j := by
  have h := i.ofValues_values
  rw [ho, hv, j.ofValues_values] at h
  exact (Except.ok.inj h).symm

/-- The record that the instruction is packed into. -/
def record (i : Instruction) : Record :=
  Record.pack i.opcode.tag (Payload.gather i.opcode.operands i.values)

theorem encode_eq (i : Instruction) : i.encode = .ok i.record := by
  rw [encode, Record.ofValues, if_neg (not_not_intro i.length_values),
    Payload.pack_eq_gather i.fits_values]
  rfl

theorem tag_record (i : Instruction) : i.record.tag = i.opcode.tag := rfl

theorem payload_record (i : Instruction) :
    i.record.payload = Payload.gather i.opcode.operands i.values := by
  rw [record, Record.payload_pack, Payload.gather_and_full i.opcode.width_add_shift_le]

theorem map_extract_record (i : Instruction) :
    i.opcode.operands.map (·.extract i.record.payload) = i.values := by
  rw [payload_record]
  apply Payload.map_extract_gather i.opcode.pairwise_operands
  · intro f hf
    exact Nat.le_trans (i.opcode.width_add_shift_le f hf) (by decide)
  · exact i.length_values
  · exact i.fits_values

end Instruction

namespace Record

theorem exists_decode {r : Record} {opcode : Opcode} (h : Opcode.ofTag? r.tag = some opcode) :
    ∃ i, r.decode = .ok i ∧ i.opcode = opcode ∧
      i.values = opcode.operands.map (·.extract r.payload) := by
  have hl : (opcode.operands.map (·.extract r.payload)).length = opcode.operands.length :=
    List.length_map _
  obtain ⟨i, hi, ho, hv⟩ :=
    Instruction.exists_ofValues hl (Operand.fits_extract opcode.operands r.payload)
  refine ⟨i, ?_, ho, hv⟩
  rw [decode, h]
  exact hi

theorem tag_of_decode_error {r : Record} {error : CodecError} (h : r.decode = .error error) :
    Opcode.ofTag? r.tag = none ∧ error = .unknownTag r.tag := by
  cases ht : Opcode.ofTag? r.tag with
  | none =>
    rw [decode, ht] at h
    exact ⟨rfl, (Except.error.inj h).symm⟩
  | some opcode =>
    obtain ⟨i, hi, -⟩ := exists_decode ht
    rw [hi] at h
    cases h

theorem decode_eq_ok_iff {r : Record} {i : Instruction} :
    r.decode = .ok i ↔
      r.tag = i.opcode.tag ∧ i.values = i.opcode.operands.map (·.extract r.payload) := by
  constructor
  · intro h
    cases ht : Opcode.ofTag? r.tag with
    | none =>
      rw [decode, ht] at h
      cases h
    | some opcode =>
      obtain ⟨j, hj, rfl, hv⟩ := exists_decode ht
      rw [hj] at h
      cases h
      exact ⟨(Opcode.tag_of_ofTag? ht).symm, hv⟩
  · rintro ⟨ht, hv⟩
    obtain ⟨j, hj, ho, hw⟩ := exists_decode (ht ▸ Opcode.ofTag?_tag i.opcode)
    rw [hj, Instruction.eq_of_values_eq ho (hw.trans hv.symm)]

theorem decode_record (i : Instruction) : i.record.decode = .ok i :=
  decode_eq_ok_iff.mpr ⟨i.tag_record, i.map_extract_record.symm⟩

theorem decodeStrict_eq_ok_iff_decode {r : Record} {i : Instruction} :
    r.decodeStrict = .ok i ↔ r.decode = .ok i ∧ r.payload &&& i.opcode.padding = 0 := by
  cases hd : r.decode with
  | error error => simp [decodeStrict, hd, bind, Except.bind]
  | ok j =>
    rw [decodeStrict, hd]
    simp only [bind, Except.bind]
    split
    next hp =>
      constructor
      · intro h
        cases h
        exact ⟨rfl, hp⟩
      · rintro ⟨h, -⟩
        exact h
    next hp =>
      constructor
      · intro h
        cases h
      · rintro ⟨h, hz⟩
        cases h
        exact absurd hz hp

theorem decodeStrict_eq_ok_iff_record {r : Record} {i : Instruction} :
    r.decodeStrict = .ok i ↔ r = i.record := by
  rw [decodeStrict_eq_ok_iff_decode]
  constructor
  · rintro ⟨hd, hp⟩
    obtain ⟨ht, hv⟩ := decode_eq_ok_iff.mp hd
    rw [Instruction.record, hv, Payload.gather_extract_of_and_padding r.payload_le_full hp, ← ht,
      pack_payload]
  · rintro rfl
    refine ⟨decode_record i, ?_⟩
    rw [Instruction.payload_record]
    exact Payload.gather_and_padding _ _

theorem decodeStrict_error {r : Record} {error : CodecError} (h : r.decodeStrict = .error error) :
    error = .unknownTag r.tag ∨
      ∃ i, r.decode = .ok i ∧ error = .paddingSet i.opcode (r.payload &&& i.opcode.padding) := by
  cases hd : r.decode with
  | error e =>
    rw [decodeStrict, hd] at h
    left
    rw [← (tag_of_decode_error hd).2]
    exact (Except.error.inj h).symm
  | ok i =>
    right
    refine ⟨i, rfl, ?_⟩
    rw [decodeStrict, hd] at h
    simp only [bind, Except.bind] at h
    split at h
    next => cases h
    next => exact (Except.error.inj h).symm

end Record

end RecordMachine
