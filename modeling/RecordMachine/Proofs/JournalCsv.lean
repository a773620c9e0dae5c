import RecordMachine.Journal
import RecordMachine.Proofs.Codec
import RecordMachine.Proofs.CsvReader
import RecordMachine.Proofs.Parts
import RecordMachine.Proofs.TableRow
/-!
# Journals read back

A journal is written with one record of five fields for each entry, and it is read back as these
records. The fields of an entry tell everything about it, so no two journals are written alike.
-/
namespace RecordMachine

open Table

namespace Text

theorem toDigits_injective {m n : Nat} (h : Nat.toDigits 10 m = Nat.toDigits 10 n) : m = n := by
  have hvalue := congrArg (fun digits => Nat.ofDigitChars 10 digits 0) h
  simpa only [Nat.ofDigitChars_ten_toDigits] using hvalue

theorem eq_of_append_digits (text : List Char) {m n : Nat} {s t : List Char}
    (h : text ++ (Nat.toDigits 10 m ++ s) = text ++ (Nat.toDigits 10 n ++ t))
    (hs : ∀ c ∈ s.head?, c.isDigit = false) (ht : ∀ c ∈ t.head?, c.isDigit = false) :
    m = n ∧ s = t := by
  have hnumber := List.append_cancel_left h
  have hrest := congrArg (List.dropWhile Char.isDigit) hnumber
  rw [Parts.dropWhile_append_of_head (fun _ hc => isDigit_of_mem_toDigits hc) hs,
    Parts.dropWhile_append_of_head (fun _ hc => isDigit_of_mem_toDigits hc) ht] at hrest
  rw [hrest] at hnumber
  exact ⟨toDigits_injective (List.append_cancel_right hnumber), hrest⟩

theorem needsQuotes_of_isWordChar {c : Char} (h : isWordChar c = true) : needsQuotes c = false := by
  simp only [needsQuotes, Bool.or_eq_false_iff, beq_eq_false_iff_ne]
  refine ⟨⟨⟨?_, ?_⟩, ?_⟩, ?_⟩ <;> rintro rfl <;> cases h

theorem csvField_eq_self {text : String} (h : ∀ c ∈ text.toList, needsQuotes c = false) :
    csvField text = text := by
  rw [csvField, if_neg]
  simpa using h

theorem csvField_toString (n : Nat) : csvField (toString n) = toString n := by
  apply csvField_eq_self
  intro c hc
  rw [toList_toString] at hc
  exact needsQuotes_of_isWordChar (isWordChar_iff.mpr (.inr (isDigit_of_mem_toDigits hc)))

end Text

theorem Opcode.mnemonic_injective {o p : Opcode} (h : o.mnemonic = p.mnemonic) : o = p := by
  have hread : ∀ o : Opcode, ofMnemonic? o.mnemonic = some o := by
    intro o
    cases o <;> rfl
  exact Option.some.inj ((hread o).symm.trans ((congrArg ofMnemonic? h).trans (hread p)))

namespace Instruction

theorem isWordChar_of_mem_name {opcode : Opcode} {f : Operand} (h : f ∈ opcode.operands) :
    ∀ c ∈ f.name.toList, isWordChar c = true := by
  have hall : opcode.operands.all fun f => f.name.toList.all isWordChar := by
    cases opcode <;> decide
  exact List.all_eq_true.mp (List.all_eq_true.mp hall f h)

theorem mem_valueText {i : Instruction} {named : String × Nat} (h : named ∈ i.namedValues)
    {c : Char} (hc : c ∈ (valueText named).toList) : c = '=' ∨ isWordChar c = true := by
  have htext : (valueText named).toList = named.1.toList ++ ['='] ++ (toString named.2).toList := by
    rw [valueText, String.toList_append, String.toList_append]
    rfl
  obtain ⟨f, hf, hname⟩ := List.mem_map.mp (List.of_mem_zip h).1
  rw [htext, List.mem_append, List.mem_append, List.mem_singleton, ← hname, Text.toList_toString]
    at hc
  rcases hc with (hc | hc) | hc
  · exact .inr (isWordChar_of_mem_name hf c hc)
  · exact .inl hc
  · exact .inr (isWordChar_iff.mpr (.inr (Text.isDigit_of_mem_toDigits hc)))

theorem eq_of_map_valueText {names : List String} {values others : List Nat}
    (hv : values.length = names.length) (ho : others.length = names.length)
    (h : (names.zip values).map valueText = (names.zip others).map valueText) :
    values = others := by
  induction names generalizing values others with
  | nil =>
    rw [List.length_eq_zero_iff.mp hv, List.length_eq_zero_iff.mp ho]
  | cons name names ih =>
    obtain ⟨value, values, rfl⟩ := List.exists_cons_of_length_eq_add_one hv
    obtain ⟨other, others, rfl⟩ := List.exists_cons_of_length_eq_add_one ho
    obtain ⟨hfirst, hrest⟩ := List.cons.inj h
    have hvalue : Nat.toDigits 10 value = Nat.toDigits 10 other := by
      simpa [valueText, ← String.toList_inj] using hfirst
    rw [Text.toDigits_injective hvalue, ih (Nat.succ.inj hv) (Nat.succ.inj ho) hrest]

end Instruction

namespace Effect

theorem toList_display_registerWrite (register : UInt8) (before after : Word) :
    (registerWrite register before after).display.toList =
      "r".toList ++ (Nat.toDigits 10 register.toNat ++
        (": ".toList ++ (Nat.toDigits 10 before.toNat ++
          (" -> ".toList ++ (Nat.toDigits 10 after.toNat ++ []))))) := by
  have htext : (registerWrite register before after).display =
      "r" ++ toString register.toNat ++ ": " ++ toString before.toNat ++ " -> " ++
        toString after.toNat := rfl
  simp only [htext, String.toList_append, Text.toList_toString, List.append_assoc, List.append_nil]

theorem toList_display_memoryWrite (address : UInt16) (before after : Word) :
    (memoryWrite address before after).display.toList =
      "mem[".toList ++ (Nat.toDigits 10 address.toNat ++
        ("]: ".toList ++ (Nat.toDigits 10 before.toNat ++
          (" -> ".toList ++ (Nat.toDigits 10 after.toNat ++ []))))) := by
  have htext : (memoryWrite address before after).display =
      "mem[" ++ toString address.toNat ++ "]: " ++ toString before.toNat ++ " -> " ++
        toString after.toNat := rfl
  simp only [htext, String.toList_append, Text.toList_toString, List.append_assoc, List.append_nil]

theorem toList_display_divisionByZero (address : UInt16) (dividend : Word) :
    (divisionByZero address dividend).display.toList =
      "notice: division by zero (".toList ++ (Nat.toDigits 10 dividend.toNat ++
        (" mod 0), mem[".toList ++ (Nat.toDigits 10 address.toNat ++ "] = 0".toList))) := by
  have htext : (divisionByZero address dividend).display =
      "notice: division by zero (" ++ toString dividend.toNat ++ " mod 0), mem[" ++
        toString address.toNat ++ "] = 0" := rfl
  simp only [htext, String.toList_append, Text.toList_toString, List.append_assoc]

def mark : Effect → Char
  | registerWrite .. => 'r'
  | memoryWrite .. => 'm'
  | divisionByZero .. => 'n'

theorem head?_display (e : Effect) : e.display.toList.head? = some e.mark := by
  cases e with
  | registerWrite register before after =>
    rw [toList_display_registerWrite]
    rfl
  | memoryWrite address before after =>
    rw [toList_display_memoryWrite]
    rfl
  | divisionByZero address dividend =>
    rw [toList_display_divisionByZero]
    rfl

theorem display_injective {e f : Effect} (h : e.display = f.display) : e = f := by
  have hmark : e.mark = f.mark := by
    rw [← Option.some_inj, ← head?_display, ← head?_display, h]
  have htexts := congrArg String.toList h
  cases e with
  | registerWrite register before after =>
    cases f with
    | registerWrite register' before' after' =>
      rw [toList_display_registerWrite, toList_display_registerWrite] at htexts
      obtain ⟨hregister, hrest⟩ := Text.eq_of_append_digits _ htexts (by simp) (by simp)
      obtain ⟨hbefore, hrest⟩ := Text.eq_of_append_digits _ hrest (by simp) (by simp)
      obtain ⟨hafter, -⟩ := Text.eq_of_append_digits _ hrest (by simp) (by simp)
      rw [UInt8.toNat_inj.mp hregister, UInt32.toNat_inj.mp hbefore, UInt32.toNat_inj.mp hafter]
    | memoryWrite | divisionByZero => cases hmark
  | memoryWrite address before after =>
    cases f with
    | memoryWrite address' before' after' =>
      rw [toList_display_memoryWrite, toList_display_memoryWrite] at htexts
      obtain ⟨haddress, hrest⟩ := Text.eq_of_append_digits _ htexts (by simp) (by simp)
      obtain ⟨hbefore, hrest⟩ := Text.eq_of_append_digits _ hrest (by simp) (by simp)
      obtain ⟨hafter, -⟩ := Text.eq_of_append_digits _ hrest (by simp) (by simp)
      rw [UInt16.toNat_inj.mp haddress, UInt32.toNat_inj.mp hbefore, UInt32.toNat_inj.mp hafter]
    | registerWrite | divisionByZero => cases hmark
  | divisionByZero address dividend =>
    cases f with
    | divisionByZero address' dividend' =>
      rw [toList_display_divisionByZero, toList_display_divisionByZero] at htexts
      obtain ⟨hdividend, hrest⟩ := Text.eq_of_append_digits _ htexts (by simp) (by simp)
      obtain ⟨haddress, -⟩ := Text.eq_of_append_digits _ hrest (by simp) (by simp)
      rw [UInt16.toNat_inj.mp haddress, UInt32.toNat_inj.mp hdividend]
    | registerWrite | memoryWrite => cases hmark

end Effect

namespace JournalEntry

def fields (e : JournalEntry) : List String :=
  [toString e.step, toString e.offset, e.instruction.opcode.mnemonic, e.valuesText,
    e.effect.display]

theorem toList_valuesText (e : JournalEntry) :
    e.valuesText.toList =
      [' '].intercalate ((e.instruction.namedValues.map Instruction.valueText).map String.toList) := by
  rw [valuesText, String.toList_intercalate]
  rfl

theorem csvField_valuesText (e : JournalEntry) : Text.csvField e.valuesText = e.valuesText := by
  apply Text.csvField_eq_self
  intro c hc
  rw [toList_valuesText] at hc
  rcases Text.mem_intercalate hc with rfl | ⟨p, hp, hc⟩
  · rfl
  · rw [List.map_map] at hp
    obtain ⟨named, hm, rfl⟩ := List.mem_map.mp hp
    rcases Instruction.mem_valueText hm hc with rfl | hw
    · rfl
    · exact Text.needsQuotes_of_isWordChar hw

theorem csvLine_eq (e : JournalEntry) : e.csvLine = Csv.line e.fields := by
  have hmnemonic : Text.csvField e.instruction.opcode.mnemonic = e.instruction.opcode.mnemonic :=
    Text.csvField_eq_self fun c hc => Text.needsQuotes_of_isWordChar
      (isWordChar_of_isWord (Instruction.isWord_mnemonic _) c hc)
  simp only [csvLine, Csv.line, fields, List.map_cons, List.map_nil, Text.csvField_toString,
    hmnemonic, csvField_valuesText]

theorem instruction_eq_of_valuesText {e f : JournalEntry}
    (ho : e.instruction.opcode = f.instruction.opcode) (hv : e.valuesText = f.valuesText) :
    e.instruction = f.instruction := by
  have hsplit : ∀ e : JournalEntry, e.valuesText.toList.splitOn ' ' =
      (e.instruction.namedValues.map Instruction.valueText).map String.toList := by
    intro e
    rw [toList_valuesText]
    apply List.splitOn_intercalate
    · intro p hp
      rw [List.map_map] at hp
      obtain ⟨named, hm, rfl⟩ := List.mem_map.mp hp
      intro hc
      rcases Instruction.mem_valueText hm hc with h | h <;> cases h
    · cases e.instruction <;> simp [Instruction.namedValues, Instruction.opcode,
        Opcode.operands, Instruction.values]
  have hparts : e.instruction.namedValues.map Instruction.valueText =
      f.instruction.namedValues.map Instruction.valueText := by
    apply List.map_injective_iff.mpr (fun _ _ => String.toList_inj.mp)
    rw [← hsplit, ← hsplit, hv]
  apply Instruction.eq_of_values_eq ho
  rw [Instruction.namedValues, Instruction.namedValues, ho] at hparts
  apply Instruction.eq_of_map_valueText _ _ hparts
  · rw [Instruction.length_values, ho, List.length_map]
  · rw [Instruction.length_values, List.length_map]

theorem fields_injective {e f : JournalEntry} (h : e.fields = f.fields) : e = f := by
  simp only [fields, List.cons.injEq, and_true, Nat.toString_eq_ofList_toDigits,
    String.ofList_inj] at h
  obtain ⟨hstep, hoffset, hmnemonic, hvalues, heffect⟩ := h
  have hinstruction := instruction_eq_of_valuesText (Opcode.mnemonic_injective hmnemonic) hvalues
  have heffect := Effect.display_injective heffect
  cases e
  cases f
  rw [mk.injEq]
  exact ⟨Text.toDigits_injective hstep, Text.toDigits_injective hoffset, hinstruction, heffect⟩

end JournalEntry

namespace Journal

def header : List String := ["step", "offset", "opcode", "operands", "effect"]

theorem csv_eq (journal : Journal) :
    journal.csv = Text.unlines ((header :: journal.map JournalEntry.fields).map Csv.line) := by
  have hheader : Csv.line header = "step,offset,opcode,operands,effect" := by decide +kernel
  rw [csv, List.map_cons, hheader, List.map_map]
  exact congrArg (fun lines => Text.unlines (_ :: lines))
    (List.map_congr_left fun e _ => e.csvLine_eq)

theorem read_csv (journal : Journal) :
    Csv.read journal.csv = some (header :: journal.map JournalEntry.fields) := by
  rw [csv_eq]
  apply Csv.read_unlines
  intro record hr
  rcases List.mem_cons.mp hr with rfl | hr
  · exact List.cons_ne_nil _ _
  · obtain ⟨e, -, rfl⟩ := List.mem_map.mp hr
    exact List.cons_ne_nil _ _

/-- Any text is read back from its field. A journal is read back as a header and one record for each
entry, with the entry's step, offset, mnemonic, operands and effect. Two journals that are written
alike are therefore equal. -/
theorem csv_read_back :
    (∀ text, Csv.readField (Text.csvField text) = some text) ∧
      (∀ first more, Csv.read (String.intercalate "," ((first :: more).map Text.csvField) ++ "\n") =
        some [first :: more]) ∧
      (∀ journal : Journal, Csv.read journal.csv =
        some (["step", "offset", "opcode", "operands", "effect"] :: journal.map fun e =>
          [toString e.step, toString e.offset, e.instruction.opcode.mnemonic,
            String.intercalate " " (e.instruction.namedValues.map fun named =>
              named.1 ++ "=" ++ toString named.2),
            e.effect.display])) ∧
      Function.Injective csv := by
  refine ⟨Csv.readField_csvField, ?_, read_csv, ?_⟩
  · intro first more
    have hlines : Text.unlines ([first :: more].map Csv.line) =
        String.intercalate "," ((first :: more).map Text.csvField) ++ "\n" := by
      rw [List.map_singleton, unlines_cons]
      exact String.append_empty
    rw [← hlines]
    exact Csv.read_unlines (by simp)
  · intro journal other h
    have hread := read_csv journal
    rw [h, read_csv, Option.some_inj] at hread
    exact List.map_injective_iff.mpr (fun _ _ => JournalEntry.fields_injective)
      (List.cons.inj hread).2.symm

end Journal

end RecordMachine
