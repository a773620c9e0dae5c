import RecordMachine.Dump.Range
import RecordMachine.Proofs.Lexeme
import RecordMachine.Proofs.Numeral
import RecordMachine.Proofs.Parts
/-!
# Texts of address ranges

A text is a range if it holds two addresses with one of the three separators between them. No
address holds a character of a separator, so the first separator that is found is the one that was
written.
-/
namespace RecordMachine

namespace Text

def IsBlanks (cs : List Char) : Prop := ∀ c ∈ cs, isBlank c = true

theorem IsBlanks.append {cs ds : List Char} (hc : IsBlanks cs) (hd : IsBlanks ds) :
    IsBlanks (cs ++ ds) :=
  fun c hm => (List.mem_append.mp hm).elim (hc c) (hd c)

theorem trim_eq (cs : List Char) : trim cs = (cs.dropWhile isBlank).rdropWhile isBlank := rfl

theorem exists_blanks_around_trim (cs : List Char) :
    ∃ before after, cs = before ++ trim cs ++ after ∧ IsBlanks before ∧ IsBlanks after :=
  Parts.exists_dropped_ends isBlank cs

theorem trim_of_blanks_around {before cs after : List Char} (hb : IsBlanks before)
    (ha : IsBlanks after) (hne : cs ≠ []) (hf : ∀ c ∈ cs.head?, isBlank c = false)
    (hl : ∀ c ∈ cs.getLast?, isBlank c = false) : trim (before ++ cs ++ after) = cs := by
  have hfirst : ∀ c ∈ (cs ++ after).head?, isBlank c = false := by
    rwa [List.head?_append, Option.or_of_isSome (List.isSome_head?.mpr hne)]
  rw [trim_eq, List.append_assoc, Parts.dropWhile_append_of_head hb hfirst,
    Parts.rdropWhile_append_of_last ha hl]

end Text

namespace AddressRange

/-- Decimal digits, perhaps behind a plus sign, that denote a number. -/
def IsUnsigned (text : List Char) (n : Nat) : Prop :=
  ∃ sign digits, text = sign ++ digits ∧ (sign = [] ∨ sign = ['+']) ∧ digits ≠ [] ∧
    (∀ c ∈ digits, c.isDigit = true) ∧ Text.positional 10 digits = n

def IsAddress (text : List Char) (address : UInt64) : Prop :=
  ∃ before number after, text = before ++ number ++ after ∧ Text.IsBlanks before ∧
    Text.IsBlanks after ∧ IsUnsigned number address.toNat

/-- The three ways to write a range: up to its last address, or up to the one behind it. -/
inductive IsRange : List Char → AddressRange → Prop
  | dash {first last : List Char} {start stop : UInt64} (hf : IsAddress first start)
      (hl : IsAddress last stop) : IsRange (first ++ ['-'] ++ last) ⟨start, stop⟩
  | inclusive {first last : List Char} {start stop : UInt64} (hf : IsAddress first start)
      (hl : IsAddress last stop) : IsRange (first ++ ['.', '.', '='] ++ last) ⟨start, stop⟩
  | exclusive {first last : List Char} {start next : UInt64} (hf : IsAddress first start)
      (hl : IsAddress last next) (hn : 1 ≤ next) :
      IsRange (first ++ ['.', '.'] ++ last) ⟨start, next - 1⟩

section Address

variable {text : List Char} {address : UInt64} {n : Nat}

theorem IsUnsigned.ne_nil (h : IsUnsigned text n) : text ≠ [] := by
  obtain ⟨sign, digits, rfl, -, hne, -, -⟩ := h
  exact fun hnil => hne (List.append_eq_nil_iff.mp hnil).2

theorem IsUnsigned.sign_or_digit (h : IsUnsigned text n) {c : Char} (hc : c ∈ text) :
    c = '+' ∨ c.isDigit = true := by
  obtain ⟨sign, digits, rfl, hs, -, hd, -⟩ := h
  rcases List.mem_append.mp hc with hc | hc
  · rcases hs with rfl | rfl
    · cases hc
    · exact .inl (List.mem_singleton.mp hc)
  · exact .inr (hd c hc)

theorem IsUnsigned.isBlank_eq_false (h : IsUnsigned text n) {c : Char} (hc : c ∈ text) :
    Text.isBlank c = false := by
  rcases h.sign_or_digit hc with rfl | hd
  · rfl
  · rw [Table.isDigit_iff] at hd
    rw [← Bool.not_eq_true]
    simp only [Text.isBlank, Bool.or_eq_true, Bool.and_eq_true, decide_eq_true_eq, beq_iff_eq]
    omega

theorem isUnsigned_of_digits {digits : List Char} (hne : digits ≠ [])
    (hd : ∀ c ∈ digits, c.isDigit = true) : IsUnsigned digits (Text.positional 10 digits) :=
  ⟨[], digits, rfl, .inl rfl, hne, hd, rfl⟩

theorem isUnsigned_plus_iff :
    IsUnsigned ('+' :: text) n ↔
      text ≠ [] ∧ (∀ c ∈ text, c.isDigit = true) ∧ Text.positional 10 text = n := by
  constructor
  · rintro ⟨sign, digits, htext, rfl | rfl, hne, hd, hn⟩
    · rw [List.nil_append] at htext
      cases hd '+' (htext ▸ List.mem_cons_self)
    · obtain rfl := List.cons.inj htext |>.2
      exact ⟨hne, hd, hn⟩
  · rintro ⟨hne, hd, hn⟩
    exact ⟨['+'], text, rfl, .inr rfl, hne, hd, hn⟩

theorem isUnsigned_iff_of_no_plus (hp : ∀ c ∈ text.head?, c ≠ '+') :
    IsUnsigned text n ↔
      text ≠ [] ∧ (∀ c ∈ text, c.isDigit = true) ∧ Text.positional 10 text = n := by
  constructor
  · rintro ⟨sign, digits, rfl, rfl | rfl, hne, hd, hn⟩
    · exact ⟨hne, hd, hn⟩
    · exact absurd rfl (hp '+' rfl)
  · rintro ⟨hne, hd, hn⟩
    exact ⟨[], text, rfl, .inl rfl, hne, hd, hn⟩

theorem map_toUInt64_positional?_eq_some_iff :
    (Text.positional? 10 text).map Nat.toUInt64 = some address ↔
      Text.positional 10 text = address.toNat := by
  have hlt : address.toNat < Text.wordLimit := address.toNat_lt
  rw [Text.positional?_eq (by decide)]
  split
  next h =>
    rw [Option.map_some, Option.some_inj, ← UInt64.toNat_inj, UInt64.toNat_ofNat_of_lt' h]
  next h =>
    simp only [Option.map_none, reduceCtorEq, false_iff]
    exact fun he => h (he ▸ hlt)

theorem unsigned?_eq_some_iff : unsigned? text = some address ↔ IsUnsigned text address.toNat := by
  have hdigits : ∀ digits : List Char,
      (if digits.isEmpty || !digits.all Char.isDigit then none
        else (Text.positional? 10 digits).map Nat.toUInt64) = some address ↔
      digits ≠ [] ∧ (∀ c ∈ digits, c.isDigit = true) ∧
        Text.positional 10 digits = address.toNat := by
    intro digits
    rw [← map_toUInt64_positional?_eq_some_iff, ← List.all_eq_true]
    cases digits <;> simp
  unfold unsigned?
  split
  next digits => rw [hdigits, isUnsigned_plus_iff]
  next hp =>
    rw [hdigits, isUnsigned_iff_of_no_plus]
    intro c hc he
    obtain ⟨rest, rfl⟩ := List.head?_eq_some_iff.mp hc
    exact hp rest (he ▸ rfl)

theorem address?_eq_some_iff : address? text = some address ↔ IsAddress text address := by
  rw [address?, unsigned?_eq_some_iff]
  constructor
  · intro h
    obtain ⟨before, after, htext, hb, ha⟩ := Text.exists_blanks_around_trim text
    exact ⟨before, Text.trim text, after, htext, hb, ha, h⟩
  · rintro ⟨before, number, after, rfl, hb, ha, h⟩
    rwa [Text.trim_of_blanks_around hb ha h.ne_nil
      (fun c hc => h.isBlank_eq_false (List.mem_of_head? hc))
      (fun c hc => h.isBlank_eq_false (List.mem_of_getLast? hc))]

theorem IsAddress.blanks_append {blanks : List Char} (hb : Text.IsBlanks blanks)
    (h : IsAddress text address) : IsAddress (blanks ++ text) address := by
  obtain ⟨before, number, after, rfl, hbefore, ha, hn⟩ := h
  exact ⟨blanks ++ before, number, after, by simp, hb.append hbefore, ha, hn⟩

theorem IsAddress.append_blanks {blanks : List Char} (h : IsAddress text address)
    (hb : Text.IsBlanks blanks) : IsAddress (text ++ blanks) address := by
  obtain ⟨before, number, after, rfl, hbefore, ha, hn⟩ := h
  exact ⟨before, number, after ++ blanks, by simp, hbefore, ha.append hb, hn⟩

theorem IsAddress.notMem (h : IsAddress text address) {c : Char} (hb : Text.isBlank c = false)
    (hp : c ≠ '+') (hd : c.isDigit = false) : c ∉ text := by
  obtain ⟨before, number, after, rfl, hbefore, ha, hn⟩ := h
  intro hm
  rcases List.mem_append.mp hm with hm | hm
  · rcases List.mem_append.mp hm with hm | hm
    · rw [hbefore c hm] at hb
      cases hb
    · rcases hn.sign_or_digit hm with h | h
      · exact hp h
      · rw [h] at hd
        cases hd
  · rw [ha c hm] at hb
    cases hb

theorem IsAddress.dot_notMem (h : IsAddress text address) : '.' ∉ text :=
  h.notMem rfl (by decide) rfl

theorem IsAddress.dash_notMem (h : IsAddress text address) : '-' ∉ text :=
  h.notMem rfl (by decide) rfl

theorem IsAddress.equals_notMem (h : IsAddress text address) : '=' ∉ text :=
  h.notMem rfl (by decide) rfl

end Address

theorem eq_of_cut?_eq_some {separator text before after : List Char}
    (h : cut? separator text = some (before, after)) : text = before ++ separator ++ after := by
  induction text generalizing before with
  | nil => cases h
  | cons c text ih =>
    rw [cut?] at h
    split at h
    next hp =>
      obtain ⟨rfl, rfl⟩ := Prod.mk.inj (Option.some.inj h)
      exact List.prefix_iff_eq_append.mp (List.isPrefixOf_iff_prefix.mp hp) |>.symm
    next =>
      obtain ⟨⟨front, back⟩, hcut, hparts⟩ := Option.map_eq_some_iff.mp h
      obtain ⟨rfl, rfl⟩ := Prod.mk.inj hparts
      rw [ih hcut]
      rfl

theorem cut?_eq_none {separator text : List Char} {c : Char} (hs : c ∈ separator) (ht : c ∉ text) :
    cut? separator text = none := by
  rcases h : cut? separator text with _ | ⟨before, after⟩
  · rfl
  · rw [eq_of_cut?_eq_some h] at ht
    simp [hs] at ht

theorem cut?_append {c : Char} {before : List Char} (h : c ∉ before) (more after : List Char) :
    cut? (c :: more) (before ++ c :: more ++ after) = some (before, after) := by
  induction before with
  | nil => simp [cut?]
  | cons d before ih =>
    rw [List.mem_cons, not_or] at h
    rw [List.cons_append, List.cons_append, cut?, ih h.2]
    simp [h.1]

def IsSeparator (separator : List Char) (inclusive : Bool) : Prop :=
  separator = ['-'] ∧ inclusive = true ∨ separator = ['.', '.', '='] ∧ inclusive = true ∨
    separator = ['.', '.'] ∧ inclusive = false

theorem eq_of_ends?_eq_some {text first last : List Char} {inclusive : Bool}
    (h : ends? text = some (first, last, inclusive)) :
    ∃ separator, IsSeparator separator inclusive ∧ text = first ++ separator ++ last := by
  unfold ends? at h
  split at h
  next hcut =>
    cases h
    exact ⟨_, .inr (.inl ⟨rfl, rfl⟩), eq_of_cut?_eq_some hcut⟩
  next =>
    split at h
    next hcut =>
      cases h
      exact ⟨_, .inr (.inr ⟨rfl, rfl⟩), eq_of_cut?_eq_some hcut⟩
    next =>
      split at h
      next hcut =>
        cases h
        exact ⟨_, .inl ⟨rfl, rfl⟩, eq_of_cut?_eq_some hcut⟩
      next => cases h

theorem ends?_of_isAddress {first last separator : List Char} {inclusive : Bool} {m n : UInt64}
    (hf : IsAddress first m) (hl : IsAddress last n) (hs : IsSeparator separator inclusive) :
    ends? (first ++ separator ++ last) = some (first, last, inclusive) := by
  rcases hs with ⟨rfl, rfl⟩ | ⟨rfl, rfl⟩ | ⟨rfl, rfl⟩
  · have hdot : '.' ∉ first ++ ['-'] ++ last := by
      simp [hf.dot_notMem, hl.dot_notMem]
    rw [ends?, cut?_eq_none (by simp) hdot, cut?_eq_none (by simp) hdot,
      cut?_append hf.dash_notMem]
  · rw [ends?, cut?_append hf.dot_notMem]
  · have hequals : '=' ∉ first ++ ['.', '.'] ++ last := by
      simp [hf.equals_notMem, hl.equals_notMem]
    rw [ends?, cut?_eq_none (by simp) hequals, cut?_append hf.dot_notMem]

theorem exists_trim_eq {first last : List Char} {m n : UInt64} (hf : IsAddress first m)
    (hl : IsAddress last n) (separator : List Char) :
    ∃ first' last', Text.trim (first ++ separator ++ last) = first' ++ separator ++ last' ∧
      IsAddress first' m ∧ IsAddress last' n := by
  obtain ⟨before, number, after, rfl, hb, ha, hn⟩ := hf
  obtain ⟨before', number', after', rfl, hb', ha', hn'⟩ := hl
  have hassoc : before ++ number ++ after ++ separator ++ (before' ++ number' ++ after') =
      before ++ (number ++ after ++ separator ++ (before' ++ number')) ++ after' := by
    simp
  have hfirst : ∀ c ∈ (number ++ after ++ separator ++ (before' ++ number')).head?,
      Text.isBlank c = false := by
    intro c hc
    obtain ⟨d, rest, rfl⟩ := List.exists_cons_of_ne_nil hn.ne_nil
    obtain rfl : d = c := Option.some.inj hc
    exact hn.isBlank_eq_false List.mem_cons_self
  have hlast : ∀ c ∈ (number ++ after ++ separator ++ (before' ++ number')).getLast?,
      Text.isBlank c = false := by
    intro c hc
    rw [List.getLast?_append_of_ne_nil _ (by simp [hn'.ne_nil]),
      List.getLast?_append_of_ne_nil _ hn'.ne_nil] at hc
    exact hn'.isBlank_eq_false (List.mem_of_getLast? hc)
  refine ⟨number ++ after, before' ++ number', ?_, ⟨[], number, after, rfl, nofun, ha, hn⟩,
    ⟨before', number', [], by simp, hb', nofun, hn'⟩⟩
  rw [hassoc, Text.trim_of_blanks_around hb ha' (by simp [hn.ne_nil]) hfirst hlast]

/-- The range of two numbers, the second of which belongs to the range or follows it. -/
def between? (inclusive : Bool) (start next : UInt64) : Option AddressRange :=
  if inclusive then some ⟨start, next⟩ else if next = 0 then none else some ⟨start, next - 1⟩

theorem ofText?_eq_some_iff {text : String} {range : AddressRange} :
    ofText? text = some range ↔
      ∃ first last inclusive start next,
        ends? (Text.trim text.toList) = some (first, last, inclusive) ∧
          address? first = some start ∧ address? last = some next ∧
          between? inclusive start next = some range := by
  simp only [ofText?, between?, Option.bind_eq_bind, Option.bind_eq_some_iff, Prod.exists,
    exists_and_left, Option.pure_def]

theorem isRange_iff {text : List Char} {range : AddressRange} :
    IsRange text range ↔
      ∃ first last inclusive start next separator, text = first ++ separator ++ last ∧
        IsSeparator separator inclusive ∧ IsAddress first start ∧ IsAddress last next ∧
        between? inclusive start next = some range := by
  constructor
  · intro h
    cases h with
    | dash hf hl => exact ⟨_, _, true, _, _, _, rfl, .inl ⟨rfl, rfl⟩, hf, hl, rfl⟩
    | inclusive hf hl => exact ⟨_, _, true, _, _, _, rfl, .inr (.inl ⟨rfl, rfl⟩), hf, hl, rfl⟩
    | exclusive hf hl hn =>
      refine ⟨_, _, false, _, _, _, rfl, .inr (.inr ⟨rfl, rfl⟩), hf, hl, ?_⟩
      rw [between?, if_neg Bool.false_ne_true, if_neg]
      rintro rfl
      exact absurd hn (by decide)
  · rintro ⟨first, last, inclusive, start, next, separator, rfl, hs, hf, hl, hr⟩
    rcases hs with ⟨rfl, rfl⟩ | ⟨rfl, rfl⟩ | ⟨rfl, rfl⟩
    · cases hr
      exact .dash hf hl
    · cases hr
      exact .inclusive hf hl
    · rw [between?, if_neg Bool.false_ne_true] at hr
      split at hr
      next => cases hr
      next hn =>
        cases hr
        refine .exclusive hf hl ?_
        rw [UInt64.le_iff_toNat_le]
        exact Nat.pos_of_ne_zero fun h => hn (UInt64.toNat_inj.mp h)

theorem ofText?_eq_some_iff_isRange {text : String} {range : AddressRange} :
    ofText? text = some range ↔ IsRange text.toList range := by
  rw [ofText?_eq_some_iff, isRange_iff]
  constructor
  · rintro ⟨first, last, inclusive, start, next, he, hf, hl, hr⟩
    obtain ⟨before, after, htext, hb, ha⟩ := Text.exists_blanks_around_trim text.toList
    obtain ⟨separator, hs, htrim⟩ := eq_of_ends?_eq_some he
    refine ⟨before ++ first, last ++ after, inclusive, start, next, separator, ?_, hs,
      (address?_eq_some_iff.mp hf).blanks_append hb, (address?_eq_some_iff.mp hl).append_blanks ha,
      hr⟩
    rw [htext, htrim]
    simp
  · rintro ⟨first, last, inclusive, start, next, separator, htext, hs, hf, hl, hr⟩
    obtain ⟨first', last', htrim, hf', hl'⟩ := exists_trim_eq hf hl separator
    refine ⟨first', last', inclusive, start, next, ?_, address?_eq_some_iff.mpr hf',
      address?_eq_some_iff.mpr hl', hr⟩
    rw [htext, htrim, ends?_of_isAddress hf' hl' hs]

theorem ofText_eq_ok_iff {text : String} {range : AddressRange} :
    ofText text = .ok range ↔ IsRange text.toList range := by
  rw [← ofText?_eq_some_iff_isRange, ofText]
  cases ofText? text <;> simp

theorem isAddress_toString (address : UInt64) :
    IsAddress (toString address.toNat).toList address := by
  have hdigits : IsUnsigned (Nat.toDigits 10 address.toNat)
      (Text.positional 10 (Nat.toDigits 10 address.toNat)) :=
    isUnsigned_of_digits Nat.toDigits_ne_nil fun _ hc => Text.isDigit_of_mem_toDigits hc
  rw [Text.positional_toDigits (by decide) (by decide)] at hdigits
  exact ⟨[], _, [], by rw [Text.toList_toString, List.append_nil]; rfl, nofun, nofun, hdigits⟩

/-- The texts of ranges are the two numbers, each with any blanks and perhaps a plus sign, and a
separator between them: every such text is read as its range, and no other text is. The displayed
form of a range is one of them, and so are the two forms with dots. -/
theorem ofText_accepts :
    (∀ text range, ofText text = .ok range ↔ IsRange text.toList range) ∧
      ∀ range : AddressRange,
        ofText range.display = .ok range ∧
          ofText s!"{range.start.toNat}..={range.stop.toNat}" = .ok range ∧
          (range.stop.toNat + 1 < UInt64.size →
            ofText s!"{range.start.toNat}..{range.stop.toNat + 1}" = .ok range) := by
  refine ⟨fun text range => ofText_eq_ok_iff, fun range => ⟨?_, ?_, ?_⟩⟩
  · rw [ofText_eq_ok_iff]
    have htext : range.display.toList =
        (toString range.start.toNat).toList ++ ['-'] ++ (toString range.stop.toNat).toList := by
      rw [display, String.toList_append, String.toList_append]
      rfl
    rw [htext]
    exact .dash (isAddress_toString range.start) (isAddress_toString range.stop)
  · rw [ofText_eq_ok_iff]
    have htext : s!"{range.start.toNat}..={range.stop.toNat}".toList =
        (toString range.start.toNat).toList ++ ['.', '.', '='] ++
          (toString range.stop.toNat).toList := by
      rw [String.toList_append, String.toList_append]
      rfl
    rw [htext]
    exact .inclusive (isAddress_toString range.start) (isAddress_toString range.stop)
  · intro h
    rw [ofText_eq_ok_iff]
    have hnext : (range.stop + 1).toNat = range.stop.toNat + 1 := by
      rw [UInt64.toNat_add]
      exact Nat.mod_eq_of_lt h
    have hpos : 1 ≤ range.stop + 1 := by
      rw [UInt64.le_iff_toNat_le, hnext]
      exact Nat.succ_le_succ (Nat.zero_le _)
    have hrange := IsRange.exclusive (isAddress_toString range.start)
      (isAddress_toString (range.stop + 1)) hpos
    rw [UInt64.add_sub_cancel, hnext] at hrange
    rw [String.toList_append, String.toList_append]
    exact hrange

end AddressRange

end RecordMachine
