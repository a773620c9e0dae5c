import RecordMachine.Text.Numeral
/-!
# Printed numbers

The printed form of a number is a run of digits, and its digits in any base up
to sixteen spell the number again. No printed number breaks a line.
-/
namespace RecordMachine.Text

theorem toList_toString (n : Nat) : (toString n).toList = Nat.toDigits 10 n := by
  rw [Nat.toString_eq_ofList_toDigits, String.toList_ofList]

theorem isDigit_of_mem_toDigits {n : Nat} {c : Char} (h : c ∈ Nat.toDigits 10 n) :
    c.isDigit = true :=
  Nat.isDigit_of_mem_toDigits (by decide) (by decide) h

theorem positional?_eq {base : Nat} (hb : 0 < base) (digits : List Char) :
    positional? base digits =
      if positional base digits < wordLimit then some (positional base digits) else none :=
  foldlM_appendDigit? hb digits (by decide)

theorem digitValue_digitChar {d : Nat} (h : d < 16) : digitValue (Nat.digitChar d) = d := by
  have hall : ∀ d < 16, digitValue (Nat.digitChar d) = d := by decide
  exact hall d h

theorem positional_concat (base : Nat) (digits : List Char) (c : Char) :
    positional base (digits ++ [c]) = positional base digits * base + digitValue c := by
  simp [positional]

theorem positional_congr {base : Nat} {digits others : List Char}
    (h : digits.map digitValue = others.map digitValue) :
    positional base digits = positional base others := by
  have hvalues : ∀ cs,
      positional base cs = (cs.map digitValue).foldl (fun n d => n * base + d) 0 := by
    intro cs
    rw [positional, List.foldl_map]
  rw [hvalues, hvalues, h]

theorem positional_zeros_append (base zeros : Nat) (digits : List Char) :
    positional base (List.replicate zeros '0' ++ digits) = positional base digits := by
  induction zeros with
  | zero => rfl
  | succ zeros ih =>
    have hzero : digitValue '0' = 0 := by decide
    rw [List.replicate_succ, List.cons_append, ← ih]
    simp [positional, hzero]

theorem positional_toDigits {base : Nat} (hb : 1 < base) (hl : base ≤ 16) (n : Nat) :
    positional base (Nat.toDigits base n) = n := by
  induction n using Nat.strongRecOn with
  | ind n ih =>
    rw [Nat.toDigits_eq_if hb]
    split
    next hn =>
      have hd : n < 16 := by omega
      simp [positional, digitValue_digitChar hd]
    next hn =>
      have hmod : n % base < base := Nat.mod_lt n (by omega)
      have hd : n % base < 16 := by omega
      rw [positional_concat, ih _ (Nat.div_lt_self (by omega) hb), digitValue_digitChar hd,
        Nat.div_add_mod']

theorem positional?_toDigits {n : Nat} (h : n < wordLimit) :
    positional? 10 (Nat.toDigits 10 n) = some n := by
  rw [positional?_eq (by decide), positional_toDigits (by decide) (by decide), if_pos h]

theorem exists_digitChar {base n : Nat} (hb : 1 < base) {c : Char} (h : c ∈ Nat.toDigits base n) :
    ∃ d, d < base ∧ c = Nat.digitChar d := by
  induction n using Nat.strongRecOn with
  | ind n ih =>
    rw [Nat.toDigits_eq_if hb] at h
    split at h
    next hn => exact ⟨n, hn, List.mem_singleton.mp h⟩
    next hn =>
      rw [List.mem_append, List.mem_singleton] at h
      rcases h with h | h
      · exact ih (n / base) (Nat.div_lt_self (by omega) hb) h
      · exact ⟨n % base, Nat.mod_lt n (by omega), h⟩

def IsLine (text : String) : Prop := '\n' ∉ text.toList

instance (text : String) : Decidable (IsLine text) := inferInstanceAs (Decidable (¬ _))

theorem IsLine.append {s t : String} (hs : IsLine s) (ht : IsLine t) : IsLine (s ++ t) := by
  intro h
  rw [String.toList_append, List.mem_append] at h
  exact h.elim hs ht

theorem isLine_toString (n : Nat) : IsLine (toString n) := by
  intro h
  rw [toList_toString] at h
  cases isDigit_of_mem_toDigits h

theorem forall_mem_hex {p : Char → Prop} (hx : p 'x') (hp : ∀ d < 16, p (Nat.digitChar d))
    (width n : Nat) : ∀ c ∈ (hex width n).toList, p c := by
  have hmark : "0x".toList = [Nat.digitChar 0, 'x'] := rfl
  intro c hc
  rw [hex, String.toList_append, List.mem_append] at hc
  rcases hc with hc | hc
  · rw [hmark, List.mem_cons, List.mem_singleton] at hc
    rcases hc with rfl | rfl
    · exact hp 0 (by decide)
    · exact hx
  rw [String.toList_ofList, List.leftpad, List.mem_append, List.mem_replicate] at hc
  rcases hc with ⟨-, rfl⟩ | hc
  · exact hp 0 (by decide)
  · obtain ⟨d, hd, rfl⟩ := exists_digitChar (by decide) hc
    exact hp d hd

theorem isLine_hex (width n : Nat) : IsLine (hex width n) :=
  fun h => forall_mem_hex (p := (· ≠ '\n')) (by decide) (by decide) width n _ h rfl

theorem hexByte_eq (b : UInt8) :
    hexByte b =
      [(Nat.digitChar (b.toNat / 16)).toUpper, (Nat.digitChar (b.toNat % 16)).toUpper] := by
  have hlt := b.toNat_lt
  rw [hexByte, Nat.toDigits_eq_if (by decide)]
  split
  next hs =>
    rw [Nat.div_eq_of_lt hs, Nat.mod_eq_of_lt hs]
    rfl
  next =>
    have hd : b.toNat / 16 < 16 := by omega
    rw [Nat.toDigits_of_lt_base hd]
    rfl

theorem mem_intercalate {sep c : Char} {parts : List (List Char)}
    (h : c ∈ [sep].intercalate parts) : c = sep ∨ ∃ p ∈ parts, c ∈ p := by
  induction parts with
  | nil => cases h
  | cons p parts ih =>
    cases parts with
    | nil =>
      rw [List.intercalate_singleton] at h
      exact .inr ⟨p, List.mem_cons_self, h⟩
    | cons q parts =>
      rw [List.intercalate_cons_cons, List.append_assoc, List.mem_append, List.mem_append,
        List.mem_singleton] at h
      rcases h with h | rfl | h
      · exact .inr ⟨p, List.mem_cons_self, h⟩
      · exact .inl rfl
      · exact (ih h).imp_right fun ⟨r, hr, hc⟩ => ⟨r, List.mem_cons_of_mem _ hr, hc⟩

theorem forall_mem_hexBytes {p : Char → Prop} (hs : p ' ')
    (hp : ∀ d < 16, p (Nat.digitChar d).toUpper) (bytes : List UInt8) :
    ∀ c ∈ (hexBytes bytes).toList, p c := by
  intro c hc
  rw [hexBytes, String.toList_ofList] at hc
  rcases mem_intercalate hc with rfl | ⟨digits, hm, hc⟩
  · exact hs
  · obtain ⟨b, -, rfl⟩ := List.mem_map.mp hm
    have hlt := b.toNat_lt
    rw [hexByte_eq, List.mem_cons, List.mem_singleton] at hc
    rcases hc with rfl | rfl
    · exact hp _ (by omega)
    · exact hp _ (by omega)

theorem isLine_hexBytes (bytes : List UInt8) : IsLine (hexBytes bytes) :=
  fun h => forall_mem_hexBytes (p := (· ≠ '\n')) (by decide) (by decide) bytes _ h rfl

end RecordMachine.Text
