import Mathlib.Algebra.Group.Nat.Defs
import Mathlib.Data.List.Fold
import Mathlib.Data.List.Forall2
import RecordMachine.Proofs.Codec
/-!
# Layouts

Packing loses nothing for any list of operands that lie within the payload and own different bits,
and not only for those of the four opcodes.
-/
namespace RecordMachine

namespace Operand

variable {f g : Operand}

theorem disjoint_iff : f.Disjoint g ↔ f.ownBits &&& g.ownBits = 0 := by
  constructor
  · intro h
    apply Nat.eq_of_testBit_eq
    intro i
    rw [Nat.testBit_and, testBit_ownBits, testBit_ownBits, ← Bool.decide_and, Nat.zero_testBit]
    exact decide_eq_false (h i)
  · intro h i ho
    have hi := congrArg (·.testBit i) h
    simp only [Nat.testBit_and, testBit_ownBits, ← Bool.decide_and, Nat.zero_testBit,
      decide_eq_false_iff_not] at hi
    exact hi ho

/-- Operands within the payload, no two of which own the same bit. -/
structure IsLayout (operands : List Operand) : Prop where
  within : ∀ f ∈ operands, f.width + f.shift ≤ Payload.width
  apart : operands.Pairwise fun f g => f.ownBits &&& g.ownBits = 0

theorem IsLayout.pairwise_disjoint {operands : List Operand} (h : IsLayout operands) :
    operands.Pairwise Disjoint :=
  h.apart.imp disjoint_iff.mpr

def Accepts (operands : List Operand) (values : List Nat) : Prop :=
  List.Forall₂ (fun f value => f.check value = .ok ()) operands values

theorem Accepts.fits {operands : List Operand} {values : List Nat} (h : Accepts operands values) :
    Fits operands values := by
  induction h with
  | nil => trivial
  | cons hv _ ih => exact ⟨check_eq_ok_iff.mp hv, ih⟩

end Operand

theorem Opcode.isLayout_operands (opcode : Opcode) : Operand.IsLayout opcode.operands :=
  ⟨opcode.width_add_shift_le, opcode.pairwise_operands.imp Operand.disjoint_iff.mp⟩

namespace Payload

variable {operands : List Operand} {values : List Nat}

theorem gather_eq_foldl (operands : List Operand) (values : List Nat) :
    gather operands values =
      (List.zipWith Operand.insert operands values).foldl (· ||| ·) 0 := by
  rw [List.foldl_eq_foldr]
  induction operands generalizing values with
  | nil => rfl
  | cons f operands ih =>
    cases values with
    | nil => rfl
    | cons value values => rw [gather, ih, List.zipWith_cons_cons, List.foldr_cons]

end Payload

/-- Packing loses nothing. The values that a layout accepts are joined into a payload, and the record
of a tag and this payload gives back the tag and each of the values, with the padding clear. A single
operand keeps as many low bits of any value as it has places for, and a record the low forty bits of
any payload. -/
theorem Record.packing_lossless :
    (∀ (operands : List Operand) (values : List Nat) (tag : UInt8),
      Operand.IsLayout operands → Operand.Accepts operands values →
        ∃ payload, Payload.pack operands values = .ok payload ∧
          payload = (List.zipWith Operand.insert operands values).foldl (· ||| ·) 0 ∧
          (Record.pack tag payload).tag = tag ∧
          (Record.pack tag payload).payload = payload ∧
          operands.map (·.extract (Record.pack tag payload).payload) = values ∧
          (Record.pack tag payload).payload &&& Payload.padding operands = 0) ∧
    (∀ (f : Operand) (n : Nat), f.extract (f.insert n) = n % 2 ^ min f.width (64 - f.shift)) ∧
    ∀ (tag : UInt8) (payload : Nat), (Record.pack tag payload).payload = payload % 2 ^ 40 := by
  refine ⟨fun operands values tag hlayout haccepts => ?_, fun f n => ?_, fun tag payload => ?_⟩
  · have hpayload : (Record.pack tag (Payload.gather operands values)).payload =
        Payload.gather operands values := by
      rw [payload_pack, Payload.gather_and_full hlayout.within]
    have hword : ∀ f ∈ operands, f.width + f.shift ≤ 64 := fun f hf =>
      Nat.le_trans (hlayout.within f hf) (by decide)
    refine ⟨_, Payload.pack_eq_gather haccepts.fits, Payload.gather_eq_foldl operands values, rfl,
      hpayload, ?_, ?_⟩
    · rw [hpayload]
      exact Payload.map_extract_gather hlayout.pairwise_disjoint hword haccepts.length_eq.symm
        haccepts.fits
    · rw [hpayload]
      exact Payload.gather_and_padding operands values
  · rw [Operand.extract_insert_eq_mod, Nat.one_shiftLeft]
  · rw [payload_pack, and_full]
    rfl

/-- Two operands with a gap between them, the lower one first, and one without any bits. -/
theorem Record.packing_lossless_gap :
    ∃ (operands : List Operand) (values : List Nat) (payload : Nat),
      operands = [⟨"low", .a, 5, 3⟩, ⟨"none", .b, 0, 39⟩, ⟨"high", .c, 12, 28⟩] ∧
      values = [31, 0, 2748] ∧ Operand.IsLayout operands ∧ Operand.Accepts operands values ∧
      Payload.pack operands values = .ok payload ∧ payload = 737660633336 ∧
      (Record.pack 254 payload).tag = 254 ∧
      operands.map (·.extract (Record.pack 254 payload).payload) = values ∧
      (Record.pack 254 payload).payload &&& Payload.padding operands = 0 := by
  have hlayout : Operand.IsLayout
      [⟨"low", .a, 5, 3⟩, ⟨"none", .b, 0, 39⟩, ⟨"high", .c, 12, 28⟩] :=
    ⟨by decide, by decide⟩
  have haccepts : Operand.Accepts
      [⟨"low", .a, 5, 3⟩, ⟨"none", .b, 0, 39⟩, ⟨"high", .c, 12, 28⟩] [31, 0, 2748] :=
    .cons rfl (.cons rfl (.cons rfl .nil))
  obtain ⟨payload, hpack, hjoin, htag, -, hvalues, hpadding⟩ :=
    packing_lossless.1 _ _ 254 hlayout haccepts
  exact ⟨_, _, payload, rfl, rfl, hlayout, haccepts, hpack, hjoin, htag, hvalues, hpadding⟩

end RecordMachine
