import Mathlib.Computability.Language
import RecordMachine.Proofs.Lexeme
/-!
# Lexical grammar

Each kind of lexeme has a rule, the language of the texts that it matches. No text is matched by two
rules, and the longest text that any rule matches at a place is the one that is cut off there.
-/
namespace RecordMachine.Table

open scoped Computability

/-! ## Characters -/

def chars (p : Char → Bool) : Language Char := {cs | ∃ c, p c = true ∧ cs = [c]}

def just (c : Char) : Language Char := chars (· == c)

def allBut (c : Char) : Language Char := chars (· != c)

def between (low high : Char) : Language Char := chars fun c => low ≤ c && c ≤ high

section

variable {p : Char → Bool} {c : Char} {cs : List Char} {l : Language Char}

theorem mem_chars : cs ∈ chars p ↔ ∃ c, p c = true ∧ cs = [c] := Iff.rfl

theorem chars_add (p q : Char → Bool) : chars p + chars q = chars fun c => p c || q c := by
  ext cs
  simp only [Language.mem_add, mem_chars, Bool.or_eq_true, or_and_right, exists_or]

theorem cons_mem_chars : c :: cs ∈ chars p ↔ p c = true ∧ cs = [] := by
  simp only [mem_chars, List.cons.injEq]
  constructor
  · rintro ⟨d, hd, rfl, hcs⟩
    exact ⟨hd, hcs⟩
  · rintro ⟨hc, hcs⟩
    exact ⟨c, hc, rfl, hcs⟩

theorem nil_notMem_chars_mul : [] ∉ chars p * l := by
  rw [Language.mem_mul]
  rintro ⟨a, ⟨c, -, rfl⟩, b, -, h⟩
  cases h

theorem cons_mem_chars_mul : c :: cs ∈ chars p * l ↔ p c = true ∧ cs ∈ l := by
  rw [Language.mem_mul]
  constructor
  · rintro ⟨a, ⟨d, hd, rfl⟩, b, hb, h⟩
    cases h
    exact ⟨hd, hb⟩
  · rintro ⟨hc, hcs⟩
    exact ⟨[c], ⟨c, hc, rfl⟩, cs, hcs, rfl⟩

theorem mem_kstar_chars : cs ∈ (chars p)∗ ↔ ∀ c ∈ cs, p c = true := by
  rw [← Language.one_add_self_mul_kstar_eq_kstar, Language.mem_add, Language.mem_one]
  induction cs with
  | nil => simp
  | cons c cs ih =>
    rw [cons_mem_chars_mul, ← Language.one_add_self_mul_kstar_eq_kstar, Language.mem_add,
      Language.mem_one, ih, List.forall_mem_cons]
    simp

theorem mem_chars_plus : cs ∈ chars p * (chars p)∗ ↔ cs ≠ [] ∧ ∀ c ∈ cs, p c = true := by
  cases cs with
  | nil => simp [nil_notMem_chars_mul]
  | cons c cs => simp [cons_mem_chars_mul, mem_kstar_chars]

end

/-! ## Rules -/

def letter : Language Char := between 'a' 'z' + between 'A' 'Z' + just '_'

def digit : Language Char := between '0' '9'

def hexDigit : Language Char := between '0' '9' + between 'a' 'f' + between 'A' 'F'

def binaryDigit : Language Char := just '0' + just '1'

def space : Language Char := just ' ' + just '\t' + just '\r' + just '\x0c'

/-- The texts that a kind of lexeme matches. Stray characters have no rule. -/
def LexemeKind.rule : LexemeKind → Language Char
  | .identifier => letter * (letter + digit)∗
  | .decimal => digit * digit∗
  | .hex => just '0' * ((just 'x' + just 'X') * (hexDigit * hexDigit∗))
  | .binary => just '0' * ((just 'b' + just 'B') * (binaryDigit * binaryDigit∗))
  | .negative => just '-' * (digit * digit∗)
  | .comma => just ','
  | .newline => just '\n'
  | .blank => space * space∗
  | .comment => just '#' * (allBut '\n')∗
  | .stray => 0

theorem between_iff {low high c : Char} :
    (decide (low ≤ c) && decide (c ≤ high)) = true ↔
      low.toNat ≤ c.toNat ∧ c.toNat ≤ high.toNat := by
  simp only [Bool.and_eq_true, decide_eq_true_eq, Char.le_def, UInt32.le_iff_toNat_le]
  exact Iff.rfl

theorem digit_eq : digit = chars Char.isDigit := rfl

theorem letter_eq : letter = chars isWordStart := by
  rw [letter, between, between, just, chars_add, chars_add]
  congr 1
  funext c
  rw [Bool.eq_iff_iff, isWordStart_iff]
  simp only [Bool.or_eq_true, between_iff, beq_iff_eq, ← Char.toNat_inj, Char.reduceToNat]
  omega

theorem letter_add_digit_eq : letter + digit = chars isWordChar := by
  rw [letter_eq, digit_eq, chars_add]
  congr 1
  funext c
  rw [Bool.eq_iff_iff, Bool.or_eq_true, isWordChar_iff]

theorem hexDigit_eq : hexDigit = chars isHexDigit := by
  rw [hexDigit, between, between, between, chars_add, chars_add]
  rfl

theorem binaryDigit_eq : binaryDigit = chars isBinaryDigit := chars_add _ _

theorem space_eq : space = chars isSpace := by
  rw [space, just, just, just, just, chars_add, chars_add, chars_add]
  rfl

section

variable {c : Char} {cs : List Char}

theorem cons_mem_identifier :
    c :: cs ∈ LexemeKind.identifier.rule ↔
      isWordStart c = true ∧ ∀ d ∈ cs, isWordChar d = true := by
  rw [LexemeKind.rule, letter_add_digit_eq, letter_eq, cons_mem_chars_mul, mem_kstar_chars]

theorem cons_mem_decimal :
    c :: cs ∈ LexemeKind.decimal.rule ↔ c.isDigit = true ∧ ∀ d ∈ cs, d.isDigit = true := by
  rw [LexemeKind.rule, digit_eq, cons_mem_chars_mul, mem_kstar_chars]

theorem cons_mem_just_mul {d : Char} {l : Language Char} :
    c :: cs ∈ just d * l ↔ c = d ∧ cs ∈ l := by
  rw [just, cons_mem_chars_mul, beq_iff_eq]

theorem mem_prefixed {x y : Char} {p : Char → Bool} :
    cs ∈ (just x + just y) * (chars p * (chars p)∗) ↔
      ∃ letter digits, cs = letter :: digits ∧ (letter = x ∨ letter = y) ∧ digits ≠ [] ∧
        ∀ d ∈ digits, p d = true := by
  rw [just, just, chars_add]
  cases cs with
  | nil => simp [nil_notMem_chars_mul]
  | cons letter digits =>
    rw [cons_mem_chars_mul, mem_chars_plus, Bool.or_eq_true, beq_iff_eq, beq_iff_eq]
    constructor
    · rintro ⟨hl, hne, hd⟩
      exact ⟨letter, digits, rfl, hl, hne, hd⟩
    · rintro ⟨_, _, ⟨⟩, h⟩
      exact h

theorem cons_mem_hex :
    c :: cs ∈ LexemeKind.hex.rule ↔ c = '0' ∧ ∃ letter digits, cs = letter :: digits ∧
      (letter = 'x' ∨ letter = 'X') ∧ digits ≠ [] ∧ ∀ d ∈ digits, isHexDigit d = true := by
  rw [LexemeKind.rule, hexDigit_eq, cons_mem_just_mul, mem_prefixed]

theorem cons_mem_binary :
    c :: cs ∈ LexemeKind.binary.rule ↔ c = '0' ∧ ∃ letter digits, cs = letter :: digits ∧
      (letter = 'b' ∨ letter = 'B') ∧ digits ≠ [] ∧ ∀ d ∈ digits, isBinaryDigit d = true := by
  rw [LexemeKind.rule, binaryDigit_eq, cons_mem_just_mul, mem_prefixed]

theorem cons_mem_negative :
    c :: cs ∈ LexemeKind.negative.rule ↔ c = '-' ∧ cs ≠ [] ∧ ∀ d ∈ cs, d.isDigit = true := by
  rw [LexemeKind.rule, digit_eq, cons_mem_just_mul, mem_chars_plus]

theorem cons_mem_comma : c :: cs ∈ LexemeKind.comma.rule ↔ c = ',' ∧ cs = [] := by
  rw [LexemeKind.rule, just, cons_mem_chars, beq_iff_eq]

theorem cons_mem_newline : c :: cs ∈ LexemeKind.newline.rule ↔ c = '\n' ∧ cs = [] := by
  rw [LexemeKind.rule, just, cons_mem_chars, beq_iff_eq]

theorem cons_mem_blank :
    c :: cs ∈ LexemeKind.blank.rule ↔ isSpace c = true ∧ ∀ d ∈ cs, isSpace d = true := by
  rw [LexemeKind.rule, space_eq, cons_mem_chars_mul, mem_kstar_chars]

theorem cons_mem_comment : c :: cs ∈ LexemeKind.comment.rule ↔ c = '#' ∧ '\n' ∉ cs := by
  rw [LexemeKind.rule, allBut, cons_mem_just_mul, mem_kstar_chars]
  simp only [bne_iff_ne, ne_eq]
  exact and_congr_right fun _ => ⟨fun h hm => h _ hm rfl, fun h d hd he => h (he ▸ hd)⟩

end

theorem nil_notMem_rule (kind : LexemeKind) : [] ∉ kind.rule := by
  cases kind with
  | identifier =>
    rw [LexemeKind.rule, letter_eq]
    exact nil_notMem_chars_mul
  | decimal => exact nil_notMem_chars_mul
  | hex => exact nil_notMem_chars_mul
  | binary => exact nil_notMem_chars_mul
  | negative => exact nil_notMem_chars_mul
  | comma =>
    rintro ⟨c, -, h⟩
    cases h
  | newline =>
    rintro ⟨c, -, h⟩
    cases h
  | blank =>
    rw [LexemeKind.rule, space_eq]
    exact nil_notMem_chars_mul
  | comment => exact nil_notMem_chars_mul
  | stray => exact id

theorem notMem_rule_stray (cs : List Char) : cs ∉ LexemeKind.stray.rule := id

/-! ## The longest match -/

theorem longest_of_isDigit {c : Char} (h : c.isDigit = true) (rest : List Char) :
    longest c rest = longestNumber c rest := by
  rw [longest, not_isWordStart_of_isDigit h, if_neg Bool.false_ne_true, if_pos h]

theorem longest_minus {rest : List Char} (h : 0 < runLength Char.isDigit rest) :
    longest '-' rest = (.negative, runLength Char.isDigit rest) := by
  rw [longest, if_neg (by decide), if_neg (by decide), if_pos ⟨rfl, h⟩]

theorem longest_comma (rest : List Char) : longest ',' rest = (.comma, 0) := rfl

theorem longest_newline (rest : List Char) : longest '\n' rest = (.newline, 0) := rfl

theorem longest_hash (rest : List Char) :
    longest '#' rest = (.comment, runLength (· != '\n') rest) := rfl

theorem scan_negative {cs : List Char} (hne : cs ≠ []) (hcs : ∀ x ∈ cs, x.isDigit = true) :
    scan ('-' :: cs) = [⟨.negative, '-' :: cs⟩] := by
  have hr := runLength_eq_length hcs
  apply scan_whole
  rw [longest_minus (hr ▸ List.length_pos_iff.mpr hne), hr]

theorem scan_of_mem_rule {kind : LexemeKind} {cs : List Char} (h : cs ∈ kind.rule) :
    scan cs = [⟨kind, cs⟩] := by
  cases cs with
  | nil => exact absurd h (nil_notMem_rule kind)
  | cons c cs =>
    cases kind with
    | identifier =>
      obtain ⟨hc, hcs⟩ := cons_mem_identifier.mp h
      apply scan_word
      rw [isWord, hc, List.all_eq_true.mpr hcs]
      rfl
    | decimal =>
      obtain ⟨hc, hcs⟩ := cons_mem_decimal.mp h
      exact scan_digits (List.cons_ne_nil c cs) (List.forall_mem_cons.mpr ⟨hc, hcs⟩)
    | hex =>
      obtain ⟨rfl, letter, digits, rfl, hl, hne, hd⟩ := cons_mem_hex.mp h
      exact scan_hex hl hne hd
    | binary =>
      obtain ⟨rfl, letter, digits, rfl, hl, hne, hd⟩ := cons_mem_binary.mp h
      exact scan_binary hl hne hd
    | negative =>
      obtain ⟨rfl, hne, hd⟩ := cons_mem_negative.mp h
      exact scan_negative hne hd
    | comma =>
      obtain ⟨rfl, rfl⟩ := cons_mem_comma.mp h
      rw [scan_comma, scan_nil]
    | newline =>
      obtain ⟨rfl, rfl⟩ := cons_mem_newline.mp h
      rw [scan_newline, scan_nil]
    | blank =>
      obtain ⟨hc, hcs⟩ := cons_mem_blank.mp h
      exact scan_spaces (List.forall_mem_cons.mpr ⟨hc, hcs⟩)
    | comment =>
      obtain ⟨rfl, hcs⟩ := cons_mem_comment.mp h
      exact scan_comment hcs
    | stray => exact absurd h (notMem_rule_stray _)

theorem rule_unique {kind other : LexemeKind} {cs : List Char} (h : cs ∈ kind.rule)
    (ho : cs ∈ other.rule) : other = kind := by
  have hs := (scan_of_mem_rule ho).symm.trans (scan_of_mem_rule h)
  cases hs
  rfl

section

variable {c : Char} {rest cs : List Char}

theorem take_runLength (p : Char → Bool) (rest : List Char) :
    rest.take (runLength p rest) = rest.takeWhile p :=
  (List.prefix_iff_eq_take.mp (List.takeWhile_prefix p)).symm

theorem length_le_runLength {p : Char → Bool} (h : cs <+: rest) (hp : ∀ c ∈ cs, p c = true) :
    cs.length ≤ runLength p rest := by
  obtain ⟨more, rfl⟩ := h
  rw [runLength, List.takeWhile_append_of_pos hp, List.length_append]
  exact Nat.le_add_right _ _

theorem runLength_pos {p : Char → Bool} (h : cs <+: rest) (hne : cs ≠ [])
    (hp : ∀ c ∈ cs, p c = true) : 0 < runLength p rest :=
  Nat.lt_of_lt_of_le (List.length_pos_iff.mpr hne) (length_le_runLength h hp)

theorem runLength_cons_of_neg {p : Char → Bool} (h : p c = false) :
    runLength p (c :: rest) = 0 := by
  rw [runLength, List.takeWhile_cons, h]
  rfl

theorem runLength_le_longestNumber (c : Char) (rest : List Char) :
    runLength Char.isDigit rest ≤ (longestNumber c rest).2 := by
  cases rest with
  | nil => exact Nat.le_refl 0
  | cons letter digits =>
    rw [longestNumber]
    split
    next h =>
      have hl : letter.isDigit = false := by rcases h.2.1 with rfl | rfl <;> decide
      rw [runLength_cons_of_neg hl]
      exact Nat.zero_le _
    next =>
      split
      next h =>
        have hl : letter.isDigit = false := by rcases h.2.1 with rfl | rfl <;> decide
        rw [runLength_cons_of_neg hl]
        exact Nat.zero_le _
      next => exact Nat.le_refl _

theorem longestNumber_hex {letter : Char} {digits : List Char} (hl : letter = 'x' ∨ letter = 'X')
    (h : 0 < runLength isHexDigit digits) :
    longestNumber '0' (letter :: digits) = (.hex, 1 + runLength isHexDigit digits) :=
  if_pos ⟨rfl, hl, h⟩

theorem longestNumber_binary {letter : Char} {digits : List Char}
    (hl : letter = 'b' ∨ letter = 'B') (h : 0 < runLength isBinaryDigit digits) :
    longestNumber '0' (letter :: digits) = (.binary, 1 + runLength isBinaryDigit digits) := by
  have hx : ¬(letter = 'x' ∨ letter = 'X') := by rcases hl with rfl | rfl <;> decide
  rw [longestNumber, if_neg fun hh => hx hh.2.1]
  exact if_pos ⟨rfl, hl, h⟩

/-- What a rule matches at a place is no longer than the lexeme there, which is no stray. -/
theorem le_longest_of_mem_rule {kind : LexemeKind} (h : cs ∈ kind.rule) (hp : cs <+: c :: rest) :
    (longest c rest).1 ≠ .stray ∧ cs.length ≤ (longest c rest).2 + 1 := by
  cases cs with
  | nil => exact absurd h (nil_notMem_rule kind)
  | cons d ds =>
    obtain ⟨rfl, hds⟩ := List.cons_prefix_cons.mp hp
    rw [List.length_cons, Nat.add_le_add_iff_right]
    cases kind with
    | identifier =>
      obtain ⟨hd, hall⟩ := cons_mem_identifier.mp h
      rw [longest, if_pos hd]
      exact ⟨by simp, length_le_runLength hds hall⟩
    | decimal =>
      obtain ⟨hd, hall⟩ := cons_mem_decimal.mp h
      rw [longest_of_isDigit hd]
      refine ⟨?_, (length_le_runLength hds hall).trans (runLength_le_longestNumber d rest)⟩
      rcases fst_longestNumber d rest with hk | hk | hk <;> rw [hk] <;> decide
    | hex =>
      obtain ⟨rfl, letter, digits, rfl, hl, hne, hall⟩ := cons_mem_hex.mp h
      obtain ⟨more, rfl, hdigits⟩ := List.cons_prefix_iff.mp hds
      have hlen := length_le_runLength hdigits hall
      rw [longest_of_isDigit rfl, longestNumber_hex hl (runLength_pos hdigits hne hall)]
      exact ⟨by simp, by simp only [List.length_cons]; omega⟩
    | binary =>
      obtain ⟨rfl, letter, digits, rfl, hl, hne, hall⟩ := cons_mem_binary.mp h
      obtain ⟨more, rfl, hdigits⟩ := List.cons_prefix_iff.mp hds
      have hlen := length_le_runLength hdigits hall
      rw [longest_of_isDigit rfl, longestNumber_binary hl (runLength_pos hdigits hne hall)]
      exact ⟨by simp, by simp only [List.length_cons]; omega⟩
    | negative =>
      obtain ⟨rfl, hne, hall⟩ := cons_mem_negative.mp h
      rw [longest_minus (runLength_pos hds hne hall)]
      exact ⟨by simp, length_le_runLength hds hall⟩
    | comma =>
      obtain ⟨rfl, rfl⟩ := cons_mem_comma.mp h
      rw [longest_comma]
      exact ⟨by simp, Nat.zero_le _⟩
    | newline =>
      obtain ⟨rfl, rfl⟩ := cons_mem_newline.mp h
      rw [longest_newline]
      exact ⟨by simp, Nat.zero_le _⟩
    | blank =>
      obtain ⟨hd, hall⟩ := cons_mem_blank.mp h
      rw [longest_of_isSpace hd]
      exact ⟨by simp, length_le_runLength hds hall⟩
    | comment =>
      obtain ⟨rfl, hall⟩ := cons_mem_comment.mp h
      rw [longest_hash]
      refine ⟨by simp, length_le_runLength hds fun x hx => ?_⟩
      exact bne_iff_ne.mpr fun he => hall (he ▸ hx)
    | stray => exact absurd h (notMem_rule_stray _)

theorem isTrue_of_mem_take_runLength {p : Char → Bool} {x : Char}
    (h : x ∈ rest.take (runLength p rest)) : p x = true := by
  rw [take_runLength] at h
  exact List.mem_takeWhile_imp h

theorem take_runLength_ne_nil {p : Char → Bool} (h : 0 < runLength p rest) :
    rest.take (runLength p rest) ≠ [] := by
  rw [take_runLength]
  exact List.length_pos_iff.mp h

theorem mem_rule_longestNumber (hc : c.isDigit = true) :
    c :: rest.take (longestNumber c rest).2 ∈ (longestNumber c rest).1.rule := by
  cases rest with
  | nil => exact cons_mem_decimal.mpr ⟨hc, by simp⟩
  | cons letter digits =>
    rw [longestNumber]
    split
    next h =>
      obtain ⟨rfl, hl, hpos⟩ := h
      rw [Nat.add_comm 1, List.take_succ_cons]
      exact cons_mem_hex.mpr ⟨rfl, letter, _, rfl, hl, take_runLength_ne_nil hpos,
        fun _ => isTrue_of_mem_take_runLength⟩
    next =>
      split
      next h =>
        obtain ⟨rfl, hl, hpos⟩ := h
        rw [Nat.add_comm 1, List.take_succ_cons]
        exact cons_mem_binary.mpr ⟨rfl, letter, _, rfl, hl, take_runLength_ne_nil hpos,
          fun _ => isTrue_of_mem_take_runLength⟩
      next => exact cons_mem_decimal.mpr ⟨hc, fun _ => isTrue_of_mem_take_runLength⟩

theorem longest_eq_or_mem_rule (c : Char) (rest : List Char) :
    longest c rest = (.stray, 0) ∨
      c :: rest.take (longest c rest).2 ∈ (longest c rest).1.rule := by
  rw [longest]
  split
  next hc => exact .inr (cons_mem_identifier.mpr ⟨hc, fun _ => isTrue_of_mem_take_runLength⟩)
  split
  next hc => exact .inr (mem_rule_longestNumber hc)
  split
  next hc =>
    exact .inr (cons_mem_negative.mpr ⟨hc.1, take_runLength_ne_nil hc.2,
      fun _ => isTrue_of_mem_take_runLength⟩)
  split
  next hc => exact .inr (cons_mem_comma.mpr ⟨hc, rfl⟩)
  split
  next hc => exact .inr (cons_mem_newline.mpr ⟨hc, rfl⟩)
  split
  next hc => exact .inr (cons_mem_blank.mpr ⟨hc, fun _ => isTrue_of_mem_take_runLength⟩)
  split
  next hc =>
    refine .inr (cons_mem_comment.mpr ⟨hc, fun hm => ?_⟩)
    have hne := isTrue_of_mem_take_runLength hm
    simp at hne
  next => exact .inl rfl

end

end RecordMachine.Table
