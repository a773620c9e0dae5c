import RecordMachine.Codec
/-!
# Operands in a payload

Placing a value and reading it back are described bit by bit. Operands that own
different bits do not disturb each other, so a packed payload gives every value
back and leaves the padding clear.
-/
namespace RecordMachine

namespace Operand

def Owns (f : Operand) (i : Nat) : Prop := f.shift ≤ i ∧ i < f.shift + f.width ∧ i < 64

instance (f : Operand) (i : Nat) : Decidable (f.Owns i) := inferInstanceAs (Decidable (_ ∧ _ ∧ _))

def Disjoint (f g : Operand) : Prop := ∀ i, ¬ (f.Owns i ∧ g.Owns i)

theorem disjoint_of_below {f g : Operand} (h : g.shift + g.width ≤ f.shift) : f.Disjoint g := by
  intro i ⟨hf, hg⟩
  have hi := hf.1
  have hi' := hg.2.1
  omega

theorem testBit_largest (f : Operand) (i : Nat) :
    f.largest.testBit i = decide (i < min f.width 64) := by
  rw [largest, Nat.one_shiftLeft]
  exact Nat.testBit_two_pow_sub_one _ _

theorem testBit_place (f : Operand) (n i : Nat) :
    (f.place n).testBit i =
      (decide (i < 64) && (decide (f.shift ≤ i) && n.testBit (i - f.shift))) := by
  rw [place, Text.wordLimit, Nat.one_shiftLeft, Nat.testBit_mod_two_pow, Nat.testBit_shiftLeft]

theorem testBit_insert (f : Operand) (n i : Nat) :
    (f.insert n).testBit i = (decide (f.Owns i) && n.testBit (i - f.shift)) := by
  rw [insert, testBit_place, Nat.testBit_and, testBit_largest]
  by_cases hi : f.shift ≤ i ∧ i < 64
  · have hw : i - f.shift < min f.width 64 ↔ i < f.shift + f.width := by omega
    simp [Owns, hi.1, hi.2, hw, Bool.and_comm]
  · have ho : ¬ f.Owns i := fun h => hi ⟨h.1, h.2.2⟩
    by_cases hs : f.shift ≤ i
    · have hl : ¬ i < 64 := fun h => hi ⟨hs, h⟩
      simp [ho, hl]
    · simp [ho, hs]

theorem testBit_ownBits (f : Operand) (i : Nat) : f.ownBits.testBit i = decide (f.Owns i) := by
  rw [ownBits, testBit_place, testBit_largest]
  by_cases hi : f.shift ≤ i ∧ i < 64
  · have hw : i - f.shift < min f.width 64 ↔ i < f.shift + f.width := by omega
    simp [Owns, hi.1, hi.2, hw]
  · have ho : ¬ f.Owns i := fun h => hi ⟨h.1, h.2.2⟩
    by_cases hs : f.shift ≤ i
    · have hl : ¬ i < 64 := fun h => hi ⟨hs, h⟩
      simp [ho, hl]
    · simp [ho, hs]

theorem testBit_extract (f : Operand) (payload i : Nat) :
    (f.extract payload).testBit i =
      (payload.testBit (f.shift + i) && decide (i < min f.width 64)) := by
  rw [extract, Nat.testBit_and, Nat.testBit_shiftRight, testBit_largest]

theorem extract_or (f : Operand) (p q : Nat) :
    f.extract (p ||| q) = f.extract p ||| f.extract q := by
  apply Nat.eq_of_testBit_eq
  intro i
  simp only [testBit_extract, Nat.testBit_or, Bool.and_or_distrib_right]

theorem insert_extract (f : Operand) (payload : Nat) :
    f.insert (f.extract payload) = payload &&& f.ownBits := by
  apply Nat.eq_of_testBit_eq
  intro i
  rw [testBit_insert, testBit_extract, Nat.testBit_and, testBit_ownBits]
  by_cases ho : f.Owns i
  · have hi : f.shift + (i - f.shift) = i := Nat.add_sub_cancel' ho.1
    have hw : i - f.shift < min f.width 64 := by
      have := ho.2
      omega
    simp [ho, hi, hw]
  · simp [ho]

theorem extract_insert_eq_mod (f : Operand) (n : Nat) :
    f.extract (f.insert n) = n % (1 <<< min f.width (64 - f.shift)) := by
  apply Nat.eq_of_testBit_eq
  intro i
  have hbits : f.Owns (f.shift + i) ∧ i < min f.width 64 ↔ i < min f.width (64 - f.shift) := by
    unfold Owns
    omega
  rw [testBit_extract, testBit_insert, Nat.add_sub_cancel_left, Nat.one_shiftLeft,
    Nat.testBit_mod_two_pow, Bool.and_right_comm, ← Bool.decide_and, decide_eq_decide.mpr hbits]

theorem extract_insert {f : Operand} {n : Nat} (hf : f.width + f.shift ≤ 64) (hn : n ≤ f.largest) :
    f.extract (f.insert n) = n := by
  have hmin : min f.width (64 - f.shift) = min f.width 64 := by omega
  have hpos := Nat.two_pow_pos (min f.width 64)
  rw [extract_insert_eq_mod, hmin]
  apply Nat.mod_eq_of_lt
  rw [largest] at hn
  rw [Nat.one_shiftLeft] at hn ⊢
  omega

theorem extract_insert_of_disjoint {f g : Operand} (h : f.Disjoint g) (n : Nat) :
    f.extract (g.insert n) = 0 := by
  apply Nat.eq_of_testBit_eq
  intro i
  rw [testBit_extract, testBit_insert, Nat.zero_testBit]
  by_cases hg : g.Owns (f.shift + i)
  · have hi : ¬ i < min f.width 64 := by
      intro hi
      exact h _ ⟨⟨by omega, by omega, hg.2.2⟩, hg⟩
    simp [hi]
  · simp [hg]

theorem le_largest_iff {f : Operand} {n : Nat} : n ≤ f.largest ↔ n < 1 <<< min f.width 64 := by
  have hpos : 0 < 1 <<< min f.width 64 := by
    rw [Nat.one_shiftLeft]
    exact Nat.two_pow_pos _
  rw [largest]
  omega

theorem check_eq_ok_iff {f : Operand} {n : Nat} : f.check n = .ok () ↔ n ≤ f.largest := by
  unfold check
  split
  next h => simp only [reduceCtorEq, false_iff]; omega
  next h => simp only [true_iff]; omega

theorem extract_le_largest (f : Operand) (payload : Nat) : f.extract payload ≤ f.largest :=
  Nat.and_le_right

def Fits : List Operand → List Nat → Prop
  | f :: operands, value :: values => value ≤ f.largest ∧ Fits operands values
  | _, _ => True

theorem Fits.le_largest {operands : List Operand} {values : List Nat} (h : Fits operands values)
    {f : Operand} {n : Nat} (hm : (f, n) ∈ operands.zip values) : n ≤ f.largest := by
  induction operands generalizing values with
  | nil => cases hm
  | cons g operands ih =>
    cases values with
    | nil => cases hm
    | cons value values =>
      rw [List.zip_cons_cons, List.mem_cons] at hm
      rcases hm with hm | hm
      · obtain ⟨rfl, rfl⟩ := Prod.mk.inj hm
        exact h.1
      · exact ih h.2 hm

theorem largest_lt_wordLimit (f : Operand) : f.largest < Text.wordLimit := by
  have hp : 2 ^ min f.width 64 ≤ 2 ^ 64 := Nat.pow_le_pow_right (by decide) (Nat.min_le_right _ _)
  have hpos := Nat.two_pow_pos (min f.width 64)
  rw [largest, Text.wordLimit, Nat.one_shiftLeft, Nat.one_shiftLeft]
  omega

theorem fits_extract (operands : List Operand) (payload : Nat) :
    Fits operands (operands.map (·.extract payload)) := by
  induction operands with
  | nil => trivial
  | cons f operands ih => exact ⟨f.extract_le_largest payload, ih⟩

theorem checkAll_eq_ok_iff {operands : List Operand} {values : List Nat} :
    checkAll operands values = .ok () ↔ Fits operands values := by
  induction operands generalizing values with
  | nil => simp [checkAll, Fits]
  | cons f operands ih =>
    cases values with
    | nil => simp [checkAll, Fits]
    | cons value values =>
      rw [checkAll, Fits, ← check_eq_ok_iff, ← ih]
      cases f.check value with
      | error e => simp [bind, Except.bind]
      | ok u => simp [bind, Except.bind]

end Operand

namespace Payload

/-- The values at the places of their operands. -/
def gather : List Operand → List Nat → Nat
  | f :: operands, value :: values => f.insert value ||| gather operands values
  | _, _ => 0

theorem pack_eq_gather {operands : List Operand} {values : List Nat}
    (h : Operand.Fits operands values) : pack operands values = .ok (gather operands values) := by
  induction operands generalizing values with
  | nil => rfl
  | cons f operands ih =>
    cases values with
    | nil => rfl
    | cons value values =>
      rw [pack, Operand.check_eq_ok_iff.mpr h.1, ih h.2]
      rfl

theorem owns_of_testBit_gather {operands : List Operand} {values : List Nat} {i : Nat}
    (h : (gather operands values).testBit i = true) : ∃ f ∈ operands, f.Owns i := by
  induction operands generalizing values with
  | nil => simp [gather] at h
  | cons f operands ih =>
    cases values with
    | nil => simp [gather] at h
    | cons value values =>
      rw [gather, Nat.testBit_or, Bool.or_eq_true] at h
      rcases h with h | h
      · rw [Operand.testBit_insert, Bool.and_eq_true, decide_eq_true_eq] at h
        exact ⟨f, List.mem_cons_self, h.1⟩
      · obtain ⟨g, hg, ho⟩ := ih h
        exact ⟨g, List.mem_cons_of_mem _ hg, ho⟩

theorem extract_gather_of_disjoint {f : Operand} {operands : List Operand}
    (h : ∀ g ∈ operands, f.Disjoint g) (values : List Nat) :
    f.extract (gather operands values) = 0 := by
  apply Nat.eq_of_testBit_eq
  intro i
  rw [Operand.testBit_extract, Nat.zero_testBit]
  cases hb : (gather operands values).testBit (f.shift + i) with
  | false => rfl
  | true =>
    obtain ⟨g, hg, ho⟩ := owns_of_testBit_gather hb
    have hi : ¬ i < min f.width 64 := fun hi => h g hg _ ⟨⟨by omega, by omega, ho.2.2⟩, ho⟩
    simp [hi]

/-- Operands that keep out of each other's way give all their values back. -/
theorem map_extract_gather {operands : List Operand} {values : List Nat}
    (hd : operands.Pairwise Operand.Disjoint) (hw : ∀ f ∈ operands, f.width + f.shift ≤ 64)
    (hl : values.length = operands.length) (hf : Operand.Fits operands values) :
    operands.map (·.extract (gather operands values)) = values := by
  induction operands generalizing values with
  | nil => exact (List.length_eq_zero_iff.mp hl).symm
  | cons f operands ih =>
    cases values with
    | nil => simp at hl
    | cons value values =>
      obtain ⟨hfd, hd⟩ := List.pairwise_cons.mp hd
      have hhead : f.extract (f.insert value ||| gather operands values) = value := by
        rw [Operand.extract_or, extract_gather_of_disjoint hfd, Nat.or_zero,
          Operand.extract_insert (hw f List.mem_cons_self) hf.1]
      have htail : ∀ g ∈ operands,
          g.extract (f.insert value ||| gather operands values) =
            g.extract (gather operands values) := by
        intro g hg
        have hgf : g.Disjoint f := fun i ho => hfd g hg i ho.symm
        rw [Operand.extract_or, Operand.extract_insert_of_disjoint hgf, Nat.zero_or]
      rw [gather, List.map_cons, hhead, List.map_congr_left htail,
        ih hd (fun g hg => hw g (List.mem_cons_of_mem _ hg)) (Nat.succ.inj hl) hf.2]

theorem testBit_foldl_ownBits (operands : List Operand) (bits i : Nat) :
    (operands.foldl (fun bits f => bits ||| f.ownBits) bits).testBit i =
      (bits.testBit i || operands.any (fun f => decide (f.Owns i))) := by
  induction operands generalizing bits with
  | nil => simp
  | cons f operands ih =>
    rw [List.foldl_cons, ih, Nat.testBit_or, Operand.testBit_ownBits, List.any_cons, Bool.or_assoc]

theorem testBit_full (i : Nat) : full.testBit i = decide (i < 40) := by
  rw [full, Nat.one_shiftLeft]
  exact Nat.testBit_two_pow_sub_one _ _

theorem gather_and_full {operands : List Operand} (hw : ∀ f ∈ operands, f.width + f.shift ≤ 40)
    (values : List Nat) : gather operands values &&& full = gather operands values := by
  apply Nat.eq_of_testBit_eq
  intro i
  rw [Nat.testBit_and, testBit_full]
  cases hb : (gather operands values).testBit i with
  | false => rfl
  | true =>
    obtain ⟨f, hf, ho⟩ := owns_of_testBit_gather hb
    have hfw := hw f hf
    have hi : i < 40 := by
      have := ho.2.1
      omega
    simp [hi]

theorem testBit_padding (operands : List Operand) (i : Nat) :
    (padding operands).testBit i =
      (decide (i < 40) && !operands.any (fun f => decide (f.Owns i))) := by
  rw [padding, Nat.testBit_xor, Nat.testBit_and, testBit_foldl_ownBits, testBit_full,
    Nat.zero_testBit, Bool.false_or]
  cases decide (i < 40) <;> cases operands.any (fun f => decide (f.Owns i)) <;> rfl

theorem gather_and_padding (operands : List Operand) (values : List Nat) :
    gather operands values &&& padding operands = 0 := by
  apply Nat.eq_of_testBit_eq
  intro i
  rw [Nat.testBit_and, testBit_padding, Nat.zero_testBit]
  cases hb : (gather operands values).testBit i with
  | false => rfl
  | true =>
    obtain ⟨f, hf, ho⟩ := owns_of_testBit_gather hb
    have hany : operands.any (fun f => decide (f.Owns i)) = true :=
      List.any_eq_true.mpr ⟨f, hf, decide_eq_true ho⟩
    simp [hany]

theorem testBit_gather_extract (operands : List Operand) (payload i : Nat) :
    (gather operands (operands.map (·.extract payload))).testBit i =
      (payload.testBit i && operands.any (fun f => decide (f.Owns i))) := by
  induction operands with
  | nil => simp [gather]
  | cons f operands ih =>
    rw [List.map_cons, gather, Nat.testBit_or, ih, Operand.insert_extract, Nat.testBit_and,
      Operand.testBit_ownBits, List.any_cons, Bool.and_or_distrib_left]

def clear (mask payload : Nat) : Nat := payload ^^^ (payload &&& mask)

theorem testBit_clear (mask payload i : Nat) :
    (clear mask payload).testBit i = (payload.testBit i && !mask.testBit i) := by
  rw [clear, Nat.testBit_xor, Nat.testBit_and]
  cases payload.testBit i <;> cases mask.testBit i <;> rfl

theorem clear_eq_self {mask payload : Nat} (h : payload &&& mask = 0) :
    clear mask payload = payload := by
  rw [clear, h, Nat.xor_zero]

theorem lt_of_testBit {payload i : Nat} (hp : payload ≤ full) (h : payload.testBit i = true) :
    i < 40 := by
  refine Nat.lt_of_not_le fun hi => ?_
  have hpow : 2 ^ 40 ≤ 2 ^ i := Nat.pow_le_pow_right (by decide) hi
  have hfull : full < 2 ^ 40 := by decide
  have hlt : payload < 2 ^ i := by omega
  rw [Nat.testBit_lt_two_pow hlt] at h
  cases h

theorem gather_extract {operands : List Operand} {payload : Nat} (hp : payload ≤ full) :
    gather operands (operands.map (·.extract payload)) = clear (padding operands) payload := by
  apply Nat.eq_of_testBit_eq
  intro i
  rw [testBit_gather_extract, testBit_clear, testBit_padding]
  cases hb : payload.testBit i with
  | false => rfl
  | true => simp [lt_of_testBit hp hb]

theorem gather_extract_of_and_padding {operands : List Operand} {payload : Nat}
    (hp : payload ≤ full) (h : payload &&& padding operands = 0) :
    gather operands (operands.map (·.extract payload)) = payload := by
  rw [gather_extract hp, clear_eq_self h]

end Payload

end RecordMachine
