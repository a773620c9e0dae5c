import Mathlib.Data.List.Basic
import RecordMachine.Proofs.Codec
import RecordMachine.Proofs.Traversal
/-!
# Checked values

Values become an instruction or, directly, a record. Either way they are counted first and then
held one after the other against the widths of their operands, so both ways refuse the same values
for the same reason and agree on all others.
-/
namespace RecordMachine

namespace Operand

variable {operands : List Operand} {values : List Nat}

/-- The first value that is too wide, and its operand. -/
def FirstTooWide (operands : List Operand) (values : List Nat) (f : Operand) (n : Nat) : Prop :=
  ∃ before after, operands.zip values = before ++ (f, n) :: after ∧
    (∀ earlier ∈ before, earlier.2 ≤ earlier.1.largest) ∧ f.largest < n

theorem check_eq_error_iff {f : Operand} {n : Nat} {error : CodecError} :
    f.check n = .error error ↔ f.largest < n ∧ error = .operandTooWide f.name n f.width := by
  unfold check
  split
  next h => simp [h, eq_comm]
  next h => simp [h]

def checkPair (pair : Operand × Nat) : Except CodecError Unit := pair.1.check pair.2

theorem checkAll_eq_mapM (operands : List Operand) (values : List Nat) :
    checkAll operands values =
      ((operands.zip values).mapM checkPair).map fun _ => () := by
  induction operands generalizing values with
  | nil => rfl
  | cons f operands ih =>
    cases values with
    | nil => rfl
    | cons value values =>
      rw [checkAll, ih, List.zip_cons_cons, List.mapM_cons, checkPair]
      cases f.check value with
      | error error => rfl
      | ok u =>
        simp only [bind, Except.bind]
        cases (operands.zip values).mapM checkPair with
        | error error => rfl
        | ok us => rfl

theorem checkAll_eq_error_iff {error : CodecError} :
    checkAll operands values = .error error ↔
      ∃ f n, FirstTooWide operands values f n ∧ error = .operandTooWide f.name n f.width := by
  have hmap : checkAll operands values = .error error ↔
      ((operands.zip values).mapM checkPair) = .error error := by
    rw [checkAll_eq_mapM]
    cases (operands.zip values).mapM checkPair with
    | error found => simp [Except.map]
    | ok us => simp [Except.map]
  rw [hmap, Traversal.mapM_eq_error_iff]
  constructor
  · rintro ⟨before, ⟨f, n⟩, after, hz, hb, hf⟩
    obtain ⟨hn, rfl⟩ := check_eq_error_iff.mp hf
    exact ⟨f, n, ⟨before, after, hz, fun p hp => check_eq_ok_iff.mp (hb p hp).choose_spec, hn⟩, rfl⟩
  · rintro ⟨f, n, ⟨before, after, hz, hb, hn⟩, rfl⟩
    exact ⟨before, (f, n), after, hz, fun p hp => ⟨(), check_eq_ok_iff.mpr (hb p hp)⟩,
      check_eq_error_iff.mpr ⟨hn, rfl⟩⟩

end Operand

theorem Payload.pack_eq_checkAll (operands : List Operand) (values : List Nat) :
    pack operands values =
      (Operand.checkAll operands values).map fun _ => gather operands values := by
  induction operands generalizing values with
  | nil => rfl
  | cons f operands ih =>
    cases values with
    | nil => rfl
    | cons value values =>
      rw [pack, Operand.checkAll, ih]
      cases f.check value with
      | error error => rfl
      | ok u =>
        simp only [bind, Except.bind]
        cases Operand.checkAll operands values with
        | error error => rfl
        | ok u => rfl

namespace Instruction

variable {opcode : Opcode} {values : List Nat}

theorem ofValues_of_length_ne (h : values.length ≠ opcode.operands.length) :
    ofValues opcode values =
      .error (.operandCount opcode opcode.operands.length values.length) := by
  unfold ofValues
  split
  · exact absurd rfl h
  · exact absurd rfl h
  · exact absurd rfl h
  · exact absurd rfl h
  · rfl

theorem ofValues_of_checkAll {error : CodecError} (hl : values.length = opcode.operands.length)
    (h : Operand.checkAll opcode.operands values = .error error) :
    ofValues opcode values = .error error := by
  cases opcode with
  | loadConst =>
    obtain ⟨dst, imm, rfl⟩ := List.length_eq_two.mp hl
    simp only [ofValues, h, bind, Except.bind]
  | readMem =>
    obtain ⟨dst, addr, rfl⟩ := List.length_eq_two.mp hl
    simp only [ofValues, h, bind, Except.bind]
  | writeMem =>
    obtain ⟨addr, src, rfl⟩ := List.length_eq_two.mp hl
    simp only [ofValues, h, bind, Except.bind]
  | mod =>
    obtain ⟨dstAddr, aReg, bReg, rfl⟩ := List.length_eq_three.mp hl
    simp only [ofValues, h, bind, Except.bind]

/-- How values become an instruction: they are counted, then checked, and those that pass are the
values of the instruction. -/
inductive Built (opcode : Opcode) (values : List Nat) : Except CodecError Instruction → Prop
  | count (h : values.length ≠ opcode.operands.length) :
      Built opcode values (.error (.operandCount opcode opcode.operands.length values.length))
  | check {error : CodecError} (hl : values.length = opcode.operands.length)
      (h : Operand.checkAll opcode.operands values = .error error) :
      Built opcode values (.error error)
  | instruction {i : Instruction} (ho : i.opcode = opcode) (hv : i.values = values) :
      Built opcode values (.ok i)

theorem built_ofValues (opcode : Opcode) (values : List Nat) :
    Built opcode values (ofValues opcode values) := by
  by_cases hl : values.length = opcode.operands.length
  · cases hc : Operand.checkAll opcode.operands values with
    | error error =>
      rw [ofValues_of_checkAll hl hc]
      exact .check hl hc
    | ok u =>
      obtain ⟨i, hi, ho, hv⟩ := exists_ofValues hl (Operand.checkAll_eq_ok_iff.mp hc)
      rw [hi]
      exact .instruction ho hv
  · rw [ofValues_of_length_ne hl]
    exact .count hl

theorem ofValues_eq_ok_iff {i : Instruction} :
    ofValues opcode values = .ok i ↔ i.opcode = opcode ∧ i.values = values := by
  constructor
  · intro h
    have hb := built_ofValues opcode values
    rw [h] at hb
    cases hb with
    | instruction ho hv => exact ⟨ho, hv⟩
  · rintro ⟨rfl, rfl⟩
    exact i.ofValues_values

theorem ofValues_eq_error_iff {error : CodecError} :
    ofValues opcode values = .error error ↔
      values.length ≠ opcode.operands.length ∧
          error = .operandCount opcode opcode.operands.length values.length ∨
        values.length = opcode.operands.length ∧
          Operand.checkAll opcode.operands values = .error error := by
  constructor
  · intro h
    have hb := built_ofValues opcode values
    rw [h] at hb
    cases hb with
    | count hl => exact .inl ⟨hl, rfl⟩
    | check hl hc => exact .inr ⟨hl, hc⟩
  · rintro (⟨hl, rfl⟩ | ⟨hl, hc⟩)
    · exact ofValues_of_length_ne hl
    · exact ofValues_of_checkAll hl hc

end Instruction

namespace Record

theorem ofValues_eq_bind (opcode : Opcode) (values : List Nat) :
    ofValues opcode values = Instruction.ofValues opcode values >>= Instruction.encode := by
  have hb := Instruction.built_ofValues opcode values
  generalize Instruction.ofValues opcode values = built at hb
  cases hb with
  | count hl =>
    rw [ofValues, if_pos hl]
    rfl
  | check hl hc =>
    rw [ofValues, if_neg (not_not_intro hl), Payload.pack_eq_checkAll, hc]
    rfl
  | instruction ho hv =>
    subst ho hv
    rfl

/-- The two ways to check values agree. Both give the same record, or both refuse the values: for
their number, else for the first one that is too wide. An instruction has the values that it was
built from. -/
theorem ofValues_agrees (opcode : Opcode) (values : List Nat) :
    ofValues opcode values = Instruction.ofValues opcode values >>= Instruction.encode ∧
    (∀ error, Instruction.ofValues opcode values = .error error ↔
      values.length ≠ opcode.operands.length ∧
          error = .operandCount opcode opcode.operands.length values.length ∨
        values.length = opcode.operands.length ∧
          ∃ f n, Operand.FirstTooWide opcode.operands values f n ∧
            error = .operandTooWide f.name n f.width) ∧
    (∀ error, ofValues opcode values = .error error ↔
      Instruction.ofValues opcode values = .error error) ∧
    ∀ i, Instruction.ofValues opcode values = .ok i ↔ i.opcode = opcode ∧ i.values = values := by
  refine ⟨ofValues_eq_bind opcode values, fun error => ?_, fun error => ?_,
    fun i => Instruction.ofValues_eq_ok_iff⟩
  · rw [Instruction.ofValues_eq_error_iff, Operand.checkAll_eq_error_iff]
  · rw [ofValues_eq_bind]
    cases Instruction.ofValues opcode values with
    | error found => simp [bind, Except.bind]
    | ok i => simp [bind, Except.bind, i.encode_eq]

end Record

end RecordMachine
