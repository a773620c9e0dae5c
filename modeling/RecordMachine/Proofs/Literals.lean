import Mathlib.Data.List.Forall2
import Mathlib.Data.Nat.Digits.Defs
import RecordMachine.Proofs.LetterCase
import RecordMachine.Proofs.MaximalMunch
import RecordMachine.Proofs.Numeral
/-!
# Literals

An unsigned number in a source means the positional value of its digits, however many there are. It
is read as this value wherever sixty-four bits can hold it, and is kept as a text where they cannot.
-/
namespace RecordMachine

namespace Text

variable {base : Nat} {digits : List Char}

/-- The character is a digit of the base and has this value; letters stand in either case. -/
def IsDigitOf (base : Nat) (c : Char) (d : Nat) : Prop :=
  d < base ∧ c.toLower = Nat.digitChar d

instance (base : Nat) (c : Char) (d : Nat) : Decidable (IsDigitOf base c d) :=
  inferInstanceAs (Decidable (_ ∧ _))

/-- The digits have this positional value; the first of them is the most significant one. -/
def Denotes (base : Nat) (digits : List Char) (n : Nat) : Prop :=
  ∃ values, List.Forall₂ (IsDigitOf base) digits values ∧ n = Nat.ofDigits base values.reverse

theorem toNat_digitChar {d : Nat} (h : d < 16) :
    (Nat.digitChar d).toNat = if d < 10 then d + 48 else d + 87 := by
  have hall : ∀ d < 16, (Nat.digitChar d).toNat = if d < 10 then d + 48 else d + 87 := by decide
  exact hall d h

theorem isDigitOf_iff (hb : base ≤ 16) {c : Char} {d : Nat} :
    IsDigitOf base c d ↔ Table.isHexDigit c = true ∧ digitValue c < base ∧ d = digitValue c := by
  rw [Table.isHexDigit_iff, Table.isDigit_iff, digitValue_eq, IsDigitOf, ← Char.toNat_inj,
    toNat_toLower]
  constructor
  · rintro ⟨hd, hc⟩
    rw [toNat_digitChar (Nat.lt_of_lt_of_le hd hb)] at hc
    grind
  · rintro ⟨hx, hlt, hd⟩
    rw [toNat_digitChar (by omega)]
    grind

theorem positional_eq_ofDigits (base : Nat) (digits : List Char) :
    positional base digits = Nat.ofDigits base (digits.map digitValue).reverse := by
  induction digits using List.reverseRecOn with
  | nil => rfl
  | append_singleton digits c ih =>
    rw [positional_concat, ih, List.map_append, List.map_singleton, List.reverse_append,
      List.reverse_singleton, List.singleton_append, Nat.ofDigits_cons, Nat.add_comm, Nat.mul_comm]

theorem denotes_iff (hb : base ≤ 16) (hd : ∀ c ∈ digits, IsDigitOf base c (digitValue c))
    {n : Nat} : Denotes base digits n ↔ n = positional base digits := by
  rw [positional_eq_ofDigits]
  constructor
  · rintro ⟨values, hv, rfl⟩
    have hvalues : List.Forall₂ Eq (digits.map digitValue) values :=
      List.forall₂_map_left_iff.mpr (hv.imp fun c d h => ((isDigitOf_iff hb).mp h).2.2.symm)
    rw [List.forall₂_eq_eq_eq] at hvalues
    rw [hvalues]
  · rintro rfl
    refine ⟨digits.map digitValue, ?_, rfl⟩
    rwa [List.forall₂_map_right_iff, List.forall₂_same]

end Text

namespace Table

/-! ## Digits -/

theorem isDigitOf_of_isDigit {c : Char} (h : c.isDigit = true) :
    Text.IsDigitOf 10 c (Text.digitValue c) := by
  rw [Text.isDigitOf_iff (by decide), isHexDigit_iff, Text.digitValue_eq]
  rw [isDigit_iff] at h ⊢
  grind

theorem isDigitOf_of_isHexDigit {c : Char} (h : isHexDigit c = true) :
    Text.IsDigitOf 16 c (Text.digitValue c) := by
  rw [Text.isDigitOf_iff (by decide), Text.digitValue_eq]
  rw [isHexDigit_iff, isDigit_iff] at h ⊢
  grind

theorem isDigitOf_of_isBinaryDigit {c : Char} (h : isBinaryDigit c = true) :
    Text.IsDigitOf 2 c (Text.digitValue c) := by
  rw [Text.isDigitOf_iff (by decide), isHexDigit_iff, isDigit_iff, Text.digitValue_eq]
  rw [isBinaryDigit_iff] at h
  grind

/-! ## Numbers -/

def LexemeKind.IsNumber (kind : LexemeKind) : Prop :=
  kind = .decimal ∨ kind = .hex ∨ kind = .binary

/-- What an unsigned number means: the value of its digits, in base sixteen or two behind a mark. -/
inductive Lexeme.Denotes : Lexeme → Nat → Prop
  | decimal {digits : List Char} {n : Nat} (h : Text.Denotes 10 digits n) :
      Denotes ⟨.decimal, digits⟩ n
  | hex {letter : Char} {digits : List Char} {n : Nat} (hl : letter = 'x' ∨ letter = 'X')
      (h : Text.Denotes 16 digits n) : Denotes ⟨.hex, '0' :: letter :: digits⟩ n
  | binary {letter : Char} {digits : List Char} {n : Nat} (hl : letter = 'b' ∨ letter = 'B')
      (h : Text.Denotes 2 digits n) : Denotes ⟨.binary, '0' :: letter :: digits⟩ n

namespace Lexeme

structure HasDigits (l : Lexeme) (base : Nat) (digits : List Char) : Prop where
  pos : 0 < base
  le : base ≤ 16
  digitOf : ∀ c ∈ digits, Text.IsDigitOf base c (Text.digitValue c)
  denotes_iff : ∀ n, l.Denotes n ↔ Text.Denotes base digits n
  number?_eq : l.number? = Text.positional? base digits

theorem exists_hasDigits {l : Lexeme} (hk : l.kind.IsNumber) (ht : l.text ∈ l.kind.rule) :
    ∃ base digits, l.HasDigits base digits := by
  obtain ⟨kind, text⟩ := l
  cases text with
  | nil => exact absurd ht (nil_notMem_rule kind)
  | cons c cs =>
    rcases hk with rfl | rfl | rfl
    · have hdigits : ∀ d ∈ c :: cs, d.isDigit = true :=
        List.forall_mem_cons.mpr (cons_mem_decimal.mp ht)
      refine ⟨10, c :: cs, by decide, by decide, fun d hd => isDigitOf_of_isDigit (hdigits d hd),
        fun n => ⟨?_, .decimal⟩, rfl⟩
      rintro ⟨h⟩
      exact h
    · obtain ⟨rfl, letter, digits, rfl, hl, -, hdigits⟩ := cons_mem_hex.mp ht
      refine ⟨16, digits, by decide, by decide, fun d hd => isDigitOf_of_isHexDigit (hdigits d hd),
        fun n => ⟨?_, .hex hl⟩, rfl⟩
      rintro (_ | ⟨-, h⟩)
      exact h
    · obtain ⟨rfl, letter, digits, rfl, hl, -, hdigits⟩ := cons_mem_binary.mp ht
      refine ⟨2, digits, by decide, by decide,
        fun d hd => isDigitOf_of_isBinaryDigit (hdigits d hd), fun n => ⟨?_, .binary hl⟩, rfl⟩
      rintro (_ | _ | ⟨-, h⟩)
      exact h

theorem ofLexemes_of_number {l : Lexeme} (hk : l.kind.IsNumber) {group : List Lexeme}
    (hg : group.filter (!·.isSkipped) = [l]) :
    Cell.ofLexemes group = l.number?.elim (.oversized (String.ofList l.text)) .number := by
  rw [Cell.ofLexemes, hg]
  dsimp only
  cases l.number? with
  | none => rcases hk with hk | hk | hk <;> rw [hk] <;> rfl
  | some n => rcases hk with hk | hk | hk <;> rw [hk] <;> rfl

theorem exists_value {l : Lexeme} (hk : l.kind.IsNumber) (ht : l.text ∈ l.kind.rule) :
    ∃ value, (∀ n, l.Denotes n ↔ n = value) ∧
      l.number? = if value < 2 ^ 64 then some value else none := by
  have hlimit : Text.wordLimit = 2 ^ 64 := rfl
  obtain ⟨base, digits, hd⟩ := exists_hasDigits hk ht
  refine ⟨Text.positional base digits, fun n => ?_, ?_⟩
  · rw [hd.denotes_iff, Text.denotes_iff hd.le hd.digitOf]
  · rw [hd.number?_eq, Text.positional?_eq hd.pos, hlimit]

/-- A number means one value, which is read off it if sixty-four bits can hold this value, and
nothing is read off otherwise. So its cell holds the value or, unchanged, the text of the number.
The numbers among the tokens of a source are such numbers. -/
theorem numbers_mean_values :
    (∀ l : Lexeme, l.kind.IsNumber → l.text ∈ l.kind.rule →
      ∃ value, (∀ n, l.Denotes n ↔ n = value) ∧
        (∀ n, l.number? = some n ↔ n = value ∧ value < 2 ^ 64) ∧
        (l.number? = none ↔ 2 ^ 64 ≤ value) ∧
        ∀ group : List Lexeme, group.filter (!·.isSkipped) = [l] →
          Cell.ofLexemes group =
            if value < 2 ^ 64 then .number value else .oversized (String.ofList l.text)) ∧
    ∀ source, ∀ t ∈ tokens source, t.lexeme.kind.IsNumber →
      t.lexeme.text ∈ t.lexeme.kind.rule := by
  constructor
  · intro l hk ht
    obtain ⟨value, hdenotes, hnumber⟩ := exists_value hk ht
    refine ⟨value, hdenotes, fun n => ?_, ?_, fun group hg => ?_⟩
    · rw [hnumber, Option.ite_none_right_eq_some, Option.some.injEq, and_comm, eq_comm]
    · rw [hnumber, ite_eq_right_iff, ← Nat.not_lt]
      exact ⟨fun h hlt => Option.some_ne_none value (h hlt), fun hn hlt => absurd hlt hn⟩
    · rw [ofLexemes_of_number hk hg, hnumber]
      split
      next => rfl
      next => rfl
  · intro source t ht hk
    obtain ⟨-, -, before, after, -, -, -, hm⟩ := exists_of_mem_tokens ht
    refine hm.mem_rule fun hs => ?_
    rw [hs] at hk
    rcases hk with hk | hk | hk <;> cases hk

/-- The largest number that fits, with zeros in front and in mixed case, and the number behind it,
which is kept as it is written. -/
theorem numbers_mean_values_limit :
    ∃ fits exceeds : Lexeme,
      fits = ⟨.hex, "0X00fFFFFfffFFFFffFf".toList⟩ ∧
      exceeds = ⟨.decimal, "018446744073709551616".toList⟩ ∧
      fits.kind.IsNumber ∧ fits.text ∈ fits.kind.rule ∧
      exceeds.kind.IsNumber ∧ exceeds.text ∈ exceeds.kind.rule ∧
      fits.Denotes 18446744073709551615 ∧ fits.number? = some 18446744073709551615 ∧
      exceeds.Denotes 18446744073709551616 ∧ exceeds.number? = none ∧
      Cell.ofLexemes [⟨.blank, [' ']⟩, fits] = .number 18446744073709551615 ∧
      Cell.ofLexemes [exceeds] = .oversized "018446744073709551616" := by
  let fits : Lexeme := ⟨.hex, "0X00fFFFFfffFFFFffFf".toList⟩
  let exceeds : Lexeme := ⟨.decimal, "018446744073709551616".toList⟩
  have hf : fits.text ∈ fits.kind.rule :=
    cons_mem_hex.mpr ⟨rfl, 'X', _, rfl, .inr rfl, by decide, List.all_eq_true.mp (by decide)⟩
  have he : exceeds.text ∈ exceeds.kind.rule :=
    cons_mem_decimal.mpr ⟨by decide, List.all_eq_true.mp (by decide)⟩
  have hfd : fits.Denotes 18446744073709551615 :=
    .hex (.inr rfl) ⟨[0, 0] ++ List.replicate 16 15, by decide, by decide⟩
  have hed : exceeds.Denotes 18446744073709551616 :=
    .decimal ⟨[0, 1, 8, 4, 4, 6, 7, 4, 4, 0, 7, 3, 7, 0, 9, 5, 5, 1, 6, 1, 6], by decide, by decide⟩
  obtain ⟨_, hfv, hfn, -, hfc⟩ := numbers_mean_values.1 fits (.inr (.inl rfl)) hf
  obtain ⟨_, hev, -, hen, hec⟩ := numbers_mean_values.1 exceeds (.inl rfl) he
  obtain rfl := (hfv _).mp hfd
  obtain rfl := (hev _).mp hed
  exact ⟨fits, exceeds, rfl, rfl, .inr (.inl rfl), hf, .inl rfl, he, hfd,
    (hfn _).mpr ⟨rfl, by decide⟩, hed, hen.mpr (by decide), hfc _ rfl, hec _ rfl⟩

end Lexeme

end Table

end RecordMachine
