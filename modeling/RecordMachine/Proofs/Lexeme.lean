import Mathlib.Data.List.TakeWhile
import RecordMachine.Table.Lexeme
/-!
# Lexemes of joined texts

No lexeme reaches over a character that ends every run, so such a character
cuts a text into parts whose lexemes are found one part after the other.
-/
namespace RecordMachine.Table

theorem isDigit_iff {c : Char} : c.isDigit = true ↔ 48 ≤ c.toNat ∧ c.toNat ≤ 57 := by
  simp only [Char.isDigit, Bool.and_eq_true, decide_eq_true_eq, UInt32.le_iff_toNat_le, ge_iff_le]
  exact Iff.rfl

theorem isWordStart_iff {c : Char} :
    isWordStart c = true ↔
      65 ≤ c.toNat ∧ c.toNat ≤ 90 ∨ 97 ≤ c.toNat ∧ c.toNat ≤ 122 ∨ c.toNat = 95 := by
  have hc : isWordStart c =
      (decide ('A'.val ≤ c.val ∧ c.val ≤ 'Z'.val) ||
        (decide ('a'.val ≤ c.val) && decide (c.val ≤ 'z'.val)) || c == '_') := rfl
  rw [hc]
  simp only [UInt32.le_iff_toNat_le, Bool.or_eq_true, Bool.and_eq_true, decide_eq_true_eq,
    beq_iff_eq, ← Char.toNat_inj, or_assoc]
  exact Iff.rfl

theorem isWordChar_iff {c : Char} :
    isWordChar c = true ↔ isWordStart c = true ∨ c.isDigit = true := by
  simp only [isWordChar, isWordStart, Char.isAlphanum, Bool.or_eq_true]
  exact or_right_comm

theorem isHexDigit_iff {c : Char} :
    isHexDigit c = true ↔
      c.isDigit = true ∨ 97 ≤ c.toNat ∧ c.toNat ≤ 102 ∨ 65 ≤ c.toNat ∧ c.toNat ≤ 70 := by
  simp only [isHexDigit, Bool.or_eq_true, Bool.and_eq_true, decide_eq_true_eq, Char.le_def,
    UInt32.le_iff_toNat_le, or_assoc]
  exact Iff.rfl

theorem isBinaryDigit_iff {c : Char} : isBinaryDigit c = true ↔ c.toNat = 48 ∨ c.toNat = 49 := by
  simp only [isBinaryDigit, Bool.or_eq_true, beq_iff_eq, ← Char.toNat_inj]
  exact Iff.rfl

theorem isDigit_eq_false {c : Char} (h : isWordChar c = false) : c.isDigit = false :=
  Bool.eq_false_iff.mpr fun hd => Bool.eq_false_iff.mp h (isWordChar_iff.mpr (.inr hd))

theorem isHexDigit_eq_false {c : Char} (h : isWordChar c = false) : isHexDigit c = false := by
  refine Bool.eq_false_iff.mpr fun hx => Bool.eq_false_iff.mp h ?_
  rw [isHexDigit_iff, isDigit_iff] at hx
  rw [isWordChar_iff, isWordStart_iff, isDigit_iff]
  omega

theorem isBinaryDigit_eq_false {c : Char} (h : isWordChar c = false) : isBinaryDigit c = false := by
  refine Bool.eq_false_iff.mpr fun hb => Bool.eq_false_iff.mp h ?_
  rw [isBinaryDigit_iff] at hb
  rw [isWordChar_iff, isDigit_iff]
  omega

theorem runLength_append {p : Char → Bool} {d : Char} (h : p d = false) (rest more : List Char) :
    runLength p (rest ++ d :: more) = runLength p rest := by
  induction rest with
  | nil => simp [runLength, h]
  | cons c rest ih =>
    simp only [runLength, List.cons_append, List.takeWhile_cons] at ih ⊢
    cases p c with
    | true => simp [ih]
    | false => rfl

theorem runLength_append_of_mem {p : Char → Bool} {rest : List Char} {x : Char} (hx : x ∈ rest)
    (h : p x = false) (more : List Char) : runLength p (rest ++ more) = runLength p rest := by
  induction rest with
  | nil => simp at hx
  | cons c rest ih =>
    simp only [runLength, List.cons_append, List.takeWhile_cons] at ih ⊢
    cases hc : p c with
    | false => rfl
    | true =>
      have hmem : x ∈ rest := by
        rcases List.mem_cons.mp hx with rfl | hmem
        · simp [h] at hc
        · exact hmem
      simp [ih hmem]

theorem runLength_le (p : Char → Bool) (cs : List Char) : runLength p cs ≤ cs.length :=
  (List.takeWhile_prefix p).length_le

theorem runLength_eq_length {p : Char → Bool} {cs : List Char} (h : ∀ c ∈ cs, p c = true) :
    runLength p cs = cs.length := by
  rw [runLength, List.takeWhile_eq_self_iff.mpr h]

theorem longestNumber_append {d : Char} (hw : isWordChar d = false) (c : Char)
    (rest more : List Char) : longestNumber c (rest ++ d :: more) = longestNumber c rest := by
  have hd := isDigit_eq_false hw
  cases rest with
  | nil =>
    have hx : ¬ (d = 'x' ∨ d = 'X') := by rintro (rfl | rfl) <;> cases hw
    have hb : ¬ (d = 'b' ∨ d = 'B') := by rintro (rfl | rfl) <;> cases hw
    simp [longestNumber, hx, hb, runLength, hd]
  | cons letter digits =>
    simp only [longestNumber, List.cons_append, runLength_append (isHexDigit_eq_false hw),
      runLength_append (isBinaryDigit_eq_false hw)]
    rw [← List.cons_append, runLength_append hd]

theorem longest_append {c d : Char} {rest : List Char} (hw : isWordChar d = false)
    (hs : isSpace c = true → isSpace d = true → ∃ x ∈ rest, isSpace x = false)
    (hc : c = '#' → d = '\n') (more : List Char) :
    longest c (rest ++ d :: more) = longest c rest := by
  rw [longest, longest, runLength_append hw, runLength_append (isDigit_eq_false hw),
    longestNumber_append hw]
  by_cases hsp : isSpace c = true
  · have hr : runLength isSpace (rest ++ d :: more) = runLength isSpace rest := by
      cases hd : isSpace d with
      | false => exact runLength_append hd rest more
      | true =>
        obtain ⟨x, hx, hxs⟩ := hs hsp hd
        exact runLength_append_of_mem hx hxs (d :: more)
    rw [hr]
    simp only [hsp, if_true]
  · by_cases hh : c = '#'
    · have hr : runLength (· != '\n') (rest ++ d :: more) = runLength (· != '\n') rest :=
        runLength_append (by simp [hc hh]) rest more
      rw [hr]
      simp only [hsp, if_false, Bool.false_eq_true]
    · simp only [hsp, hh, if_false, Bool.false_eq_true]

theorem longestNumber_le (c : Char) (rest : List Char) :
    (longestNumber c rest).2 ≤ rest.length := by
  cases rest with
  | nil => exact Nat.le_refl 0
  | cons letter digits =>
    have hx := runLength_le isHexDigit digits
    have hb := runLength_le isBinaryDigit digits
    have hd := runLength_le Char.isDigit (letter :: digits)
    simp only [longestNumber, List.length_cons] at hd ⊢
    split
    · simp only
      omega
    · split <;> simp only <;> omega

theorem longest_le (c : Char) (rest : List Char) : (longest c rest).2 ≤ rest.length := by
  unfold longest
  split
  · exact runLength_le _ _
  split
  · exact longestNumber_le _ _
  split
  · exact runLength_le _ _
  split
  · exact Nat.zero_le _
  split
  · exact Nat.zero_le _
  split
  · exact runLength_le _ _
  split
  · exact runLength_le _ _
  · exact Nat.zero_le _

theorem scan_nil : scan [] = [] := by
  rw [scan]

theorem scan_cons (c : Char) (rest : List Char) :
    scan (c :: rest) =
      ⟨(longest c rest).1, c :: rest.take (longest c rest).2⟩ ::
        scan (rest.drop (longest c rest).2) := by
  rw [scan]

theorem scan_append {d : Char} (hw : isWordChar d = false) {a : List Char}
    (hs : isSpace d = true → ∀ c ∈ a.getLast?, isSpace c = false) (hc : d ≠ '\n' → '#' ∉ a)
    (more : List Char) : scan (a ++ d :: more) = scan a ++ scan (d :: more) := by
  induction hn : a.length using Nat.strongRecOn generalizing a with
  | ind n ih =>
    cases a with
    | nil => simp [scan_nil]
    | cons c rest =>
      have hspace : isSpace c = true → isSpace d = true → ∃ x ∈ rest, isSpace x = false := by
        intro hsc hsd
        have hlast := hs hsd
        rw [List.getLast?_cons] at hlast
        cases hl : rest.getLast? with
        | none => simp [hl, hsc] at hlast
        | some x =>
          rw [hl] at hlast
          exact ⟨x, List.mem_of_getLast? hl, hlast x rfl⟩
      have hcomment : c = '#' → d = '\n' := by
        intro hh
        by_cases hd : d = '\n'
        · exact hd
        · exact absurd (hh ▸ List.mem_cons_self) (hc hd)
      have hle := longest_le c rest
      have hlt : (rest.drop (longest c rest).2).length < n := by
        rw [← hn, List.length_drop, List.length_cons]
        omega
      have hmem : ∀ x ∈ rest.drop (longest c rest).2, x ∈ c :: rest := fun x hx =>
        List.mem_cons_of_mem _ (List.mem_of_mem_drop hx)
      have hlast : isSpace d = true →
          ∀ x ∈ (rest.drop (longest c rest).2).getLast?, isSpace x = false := by
        intro hsd x hx
        apply hs hsd
        rw [List.getLast?_drop] at hx
        split at hx
        · simp at hx
        · rw [List.getLast?_cons, Option.mem_def.mp hx]
          rfl
      rw [List.cons_append, scan_cons, scan_cons c rest, longest_append hw hspace hcomment,
        List.take_append_of_le_length hle, List.drop_append_of_le_length hle,
        ih _ hlt hlast (fun hd hx => hc hd (hmem _ hx)) rfl]
      rfl

theorem scan_whole {c : Char} {cs : List Char} {kind : LexemeKind}
    (h : longest c cs = (kind, cs.length)) : scan (c :: cs) = [⟨kind, c :: cs⟩] := by
  rw [scan_cons, h, List.take_length, List.drop_length, scan_nil]

theorem scan_newline (more : List Char) :
    scan ('\n' :: more) = ⟨.newline, ['\n']⟩ :: scan more := by
  rw [scan_cons]
  rfl

theorem scan_comma (more : List Char) : scan (',' :: more) = ⟨.comma, [',']⟩ :: scan more := by
  rw [scan_cons]
  rfl

theorem scan_append_newline (a b : List Char) :
    scan (a ++ '\n' :: b) = scan a ++ ⟨.newline, ['\n']⟩ :: scan b := by
  rw [scan_append (by decide) (fun h => by cases h) (fun h => absurd rfl h), scan_newline]

theorem not_isWordStart_of_isDigit {c : Char} (h : c.isDigit = true) : isWordStart c = false := by
  refine Bool.eq_false_iff.mpr fun hw => ?_
  rw [isDigit_iff] at h
  rw [isWordStart_iff] at hw
  omega

def isWord : List Char → Bool
  | [] => false
  | c :: cs => isWordStart c && cs.all isWordChar

theorem isWordChar_of_isWord {cs : List Char} (h : isWord cs = true) :
    ∀ c ∈ cs, isWordChar c = true := by
  cases cs with
  | nil => exact fun c hc => absurd hc List.not_mem_nil
  | cons d ds =>
    rw [isWord, Bool.and_eq_true, List.all_eq_true] at h
    intro c hc
    rcases List.mem_cons.mp hc with rfl | hc
    · exact isWordChar_iff.mpr (.inl h.1)
    · exact h.2 c hc

theorem scan_word {cs : List Char} (h : isWord cs = true) : scan cs = [⟨.identifier, cs⟩] := by
  cases cs with
  | nil => cases h
  | cons c cs =>
    rw [isWord, Bool.and_eq_true, List.all_eq_true] at h
    apply scan_whole
    rw [longest, if_pos h.1, runLength_eq_length h.2]

theorem scan_digits {cs : List Char} (hne : cs ≠ []) (hcs : ∀ x ∈ cs, x.isDigit = true) :
    scan cs = [⟨.decimal, cs⟩] := by
  cases cs with
  | nil => exact absurd rfl hne
  | cons c rest =>
    have hc := hcs c List.mem_cons_self
    have hrest : ∀ x ∈ rest, x.isDigit = true := fun x hx => hcs x (List.mem_cons_of_mem _ hx)
    have hn : longestNumber c rest = (.decimal, rest.length) := by
      cases rest with
      | nil => rfl
      | cons letter digits =>
        have hd := hrest letter List.mem_cons_self
        have hx : ¬ (letter = 'x' ∨ letter = 'X') := by rintro (rfl | rfl) <;> cases hd
        have hb : ¬ (letter = 'b' ∨ letter = 'B') := by rintro (rfl | rfl) <;> cases hd
        simp only [longestNumber, hx, hb, false_and, and_false, if_false]
        rw [runLength_eq_length hrest]
    apply scan_whole
    rw [longest, not_isWordStart_of_isDigit hc, if_neg Bool.false_ne_true, if_pos hc, hn]

theorem scan_hex {letter : Char} (hl : letter = 'x' ∨ letter = 'X') {digits : List Char}
    (hne : digits ≠ []) (hd : ∀ c ∈ digits, isHexDigit c = true) :
    scan ('0' :: letter :: digits) = [⟨.hex, '0' :: letter :: digits⟩] := by
  have hpos : 0 < digits.length := List.length_pos_iff.mpr hne
  have hn : longestNumber '0' (letter :: digits) = (.hex, (letter :: digits).length) := by
    simp [longestNumber, hl, runLength_eq_length hd, hpos, Nat.add_comm]
  apply scan_whole
  rw [← hn]
  rfl

theorem scan_binary {letter : Char} (hl : letter = 'b' ∨ letter = 'B') {digits : List Char}
    (hne : digits ≠ []) (hd : ∀ c ∈ digits, isBinaryDigit c = true) :
    scan ('0' :: letter :: digits) = [⟨.binary, '0' :: letter :: digits⟩] := by
  have hpos : 0 < digits.length := List.length_pos_iff.mpr hne
  have hx : ¬ (letter = 'x' ∨ letter = 'X') := by rcases hl with rfl | rfl <;> decide
  have hn : longestNumber '0' (letter :: digits) = (.binary, (letter :: digits).length) := by
    simp [longestNumber, hl, hx, runLength_eq_length hd, hpos, Nat.add_comm]
  apply scan_whole
  rw [← hn]
  rfl

theorem scan_comment {cs : List Char} (h : '\n' ∉ cs) :
    scan ('#' :: cs) = [⟨.comment, '#' :: cs⟩] := by
  have hr : runLength (· != '\n') cs = cs.length := by
    apply runLength_eq_length
    intro x hx
    exact bne_iff_ne.mpr fun he => h (he ▸ hx)
  apply scan_whole
  rw [← hr]
  rfl

theorem longest_of_isSpace {c : Char} (h : isSpace c = true) (rest : List Char) :
    longest c rest = (.blank, runLength isSpace rest) := by
  simp only [isSpace, Bool.or_eq_true, beq_iff_eq] at h
  rcases h with ((rfl | rfl) | rfl) | rfl <;> rfl

theorem scan_spaces {c : Char} {rest : List Char} (h : ∀ x ∈ c :: rest, isSpace x = true) :
    scan (c :: rest) = [⟨.blank, c :: rest⟩] := by
  apply scan_whole
  rw [longest_of_isSpace (h c List.mem_cons_self),
    runLength_eq_length fun x hx => h x (List.mem_cons_of_mem _ hx)]

theorem isSkipped_of_mem_scan_spaces {cs : List Char} (h : ∀ c ∈ cs, isSpace c = true) :
    ∀ l ∈ scan cs, l.isSkipped = true := by
  cases cs with
  | nil => simp [scan_nil]
  | cons c rest => simp [scan_spaces h, Lexeme.isSkipped]

theorem fst_longestNumber (c : Char) (rest : List Char) :
    (longestNumber c rest).1 = .decimal ∨ (longestNumber c rest).1 = .hex ∨
      (longestNumber c rest).1 = .binary := by
  cases rest with
  | nil => exact .inl rfl
  | cons letter digits =>
    simp only [longestNumber]
    split
    · exact .inr (.inl rfl)
    · split
      · exact .inr (.inr rfl)
      · exact .inl rfl

/-- The character that a lexeme of the kind starts with, where it is always the same. -/
def LexemeKind.opener? : LexemeKind → Option Char
  | .comma => some ','
  | .newline => some '\n'
  | .comment => some '#'
  | .identifier | .decimal | .hex | .binary | .negative | .blank | .stray => none

theorem opener?_longestNumber (c : Char) (rest : List Char) :
    (longestNumber c rest).1.opener? = none := by
  rcases fst_longestNumber c rest with h | h | h <;> rw [h] <;> rfl

theorem eq_of_opener?_longest {c d : Char} {rest : List Char}
    (h : (longest c rest).1.opener? = some d) : c = d := by
  unfold longest at h
  split at h
  · cases h
  split at h
  · rw [opener?_longestNumber] at h
    cases h
  split at h
  · cases h
  split at h
  next hc => exact hc.trans (Option.some.inj h)
  split at h
  next hc => exact hc.trans (Option.some.inj h)
  split at h
  · cases h
  split at h
  next hc => exact hc.trans (Option.some.inj h)
  · cases h

theorem isSpace_of_longest {c : Char} {rest : List Char} (h : (longest c rest).1 = .blank) :
    isSpace c = true := by
  have hn := fst_longestNumber c rest
  unfold longest at h
  split at h
  · cases h
  split at h
  · simp [h] at hn
  split at h
  · cases h
  split at h
  · cases h
  split at h
  · cases h
  split at h
  · assumption
  split at h <;> cases h

theorem exists_of_mem_scan {cs : List Char} {l : Lexeme} (h : l ∈ scan cs) :
    ∃ before c rest, cs = before ++ c :: rest ∧
      l = ⟨(longest c rest).1, c :: rest.take (longest c rest).2⟩ := by
  induction hn : cs.length using Nat.strongRecOn generalizing cs with
  | ind n ih =>
    cases cs with
    | nil => simp [scan_nil] at h
    | cons c rest =>
      have hlt : (rest.drop (longest c rest).2).length < n := by
        rw [← hn, List.length_drop, List.length_cons]
        omega
      rw [scan_cons] at h
      rcases List.mem_cons.mp h with h | h
      · exact ⟨[], c, rest, rfl, h⟩
      · obtain ⟨before, d, more, hcs, hl⟩ := ih _ hlt h rfl
        refine ⟨c :: (rest.take (longest c rest).2 ++ before), d, more, ?_, hl⟩
        rw [List.cons_append, List.append_assoc, ← hcs, List.take_append_drop]

theorem kind_ne_of_notMem {kind : LexemeKind} {d : Char} (hk : kind.opener? = some d)
    {cs : List Char} (h : d ∉ cs) : ∀ l ∈ scan cs, (l.kind == kind) = false := by
  intro l hl
  obtain ⟨before, c, rest, hcs, hlex⟩ := exists_of_mem_scan hl
  refine beq_eq_false_iff_ne.mpr fun he => h ?_
  have hkind : (longest c rest).1 = kind := by rw [← he, hlex]
  have hc : c = d := eq_of_opener?_longest (hkind ▸ hk)
  rw [hcs, ← hc]
  simp

theorem kind_ne_newline {cs : List Char} (h : '\n' ∉ cs) :
    ∀ l ∈ scan cs, (l.kind == .newline) = false :=
  kind_ne_of_notMem rfl h

theorem isSpace_of_mem_blank {cs : List Char} {l : Lexeme} (h : l ∈ scan cs)
    (hk : l.kind = .blank) : ∀ c ∈ l.text, isSpace c = true := by
  obtain ⟨before, c, rest, hcs, rfl⟩ := exists_of_mem_scan h
  have hc := isSpace_of_longest hk
  intro x hx
  rw [longest_of_isSpace hc] at hx
  rcases List.mem_cons.mp hx with rfl | hx
  · exact hc
  · rw [runLength, ← List.prefix_iff_eq_take.mp (List.takeWhile_prefix isSpace)] at hx
    exact List.mem_takeWhile_imp hx

end RecordMachine.Table
