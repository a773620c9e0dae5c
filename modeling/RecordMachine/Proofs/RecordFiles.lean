import RecordMachine.Dump
import RecordMachine.Files.Format
import RecordMachine.Proofs.JournalCsv
/-!
# Record files

What stands in the files that journals and dumps are written to, line by line. A comma-separated
file has a header and a line for each record. A JSON file holds an array with an object for each
record, two blanks deeper on every level.
-/
namespace RecordMachine

open Files

/-! ## Lines -/

namespace Files

def textOf (lines : List String) : String :=
  String.ofList (lines.flatMap fun line => line.toList ++ ['\n'])

/-- The contents of a file with these lines. -/
def textFile (lines : List String) : List UInt8 := (textOf lines).toUTF8.toList

/-- The lines of the objects in an array, by the lines of their members. -/
def objectLines : List (List String) → List String
  | [] => []
  | [members] => "  \x7b" :: members ++ ["  \x7d"]
  | members :: more => "  \x7b" :: members ++ "  \x7d," :: objectLines more

def arrayLines : List (List String) → List String
  | [] => ["[]"]
  | objects => "[" :: objectLines objects ++ ["]"]

end Files

def Dump.Entry.members (r : Dump.Entry) : List String :=
  ["    \"address\": " ++ toString r.address ++ ",",
    "    \"value\": " ++ toString r.value.toNat]

def Dump.lines (dump : Dump) : Format → List String
  | .csv => "Address,Value" :: dump.map fun r => toString r.address ++ "," ++ toString r.value.toNat
  | .json => arrayLines (dump.map Entry.members)

def Instruction.fieldTexts : Instruction → List String
  | .loadConst dst imm =>
    ["LOAD_CONST", "dst=" ++ toString dst.toNat ++ " imm=" ++ toString imm.toNat]
  | .readMem dst addr =>
    ["READ_MEM", "dst=" ++ toString dst.toNat ++ " addr=" ++ toString addr.toNat]
  | .writeMem addr src =>
    ["WRITE_MEM", "addr=" ++ toString addr.toNat ++ " src=" ++ toString src.toNat]
  | .mod dstAddr aReg bReg =>
    ["MOD", "dst_addr=" ++ toString dstAddr.toNat ++ " a_reg=" ++ toString aReg.toNat ++
      " b_reg=" ++ toString bReg.toNat]

/-- A notice holds a comma and so stands between quotes. -/
def Effect.fieldText : Effect → String
  | .registerWrite register before after =>
    "r" ++ toString register.toNat ++ ": " ++ toString before.toNat ++ " -> " ++
      toString after.toNat
  | .memoryWrite address before after =>
    "mem[" ++ toString address.toNat ++ "]: " ++ toString before.toNat ++ " -> " ++
      toString after.toNat
  | .divisionByZero address dividend =>
    "\"notice: division by zero (" ++ toString dividend.toNat ++ " mod 0), mem[" ++
      toString address.toNat ++ "] = 0\""

def Instruction.members : Instruction → List String
  | .loadConst dst imm =>
    ["      \"LoadConst\": \x7b",
      "        \"dst\": " ++ toString dst.toNat ++ ",",
      "        \"imm\": " ++ toString imm.toNat,
      "      \x7d"]
  | .readMem dst addr =>
    ["      \"ReadMem\": \x7b",
      "        \"dst\": " ++ toString dst.toNat ++ ",",
      "        \"addr\": " ++ toString addr.toNat,
      "      \x7d"]
  | .writeMem addr src =>
    ["      \"WriteMem\": \x7b",
      "        \"addr\": " ++ toString addr.toNat ++ ",",
      "        \"src\": " ++ toString src.toNat,
      "      \x7d"]
  | .mod dstAddr aReg bReg =>
    ["      \"Mod\": \x7b",
      "        \"dst_addr\": " ++ toString dstAddr.toNat ++ ",",
      "        \"a_reg\": " ++ toString aReg.toNat ++ ",",
      "        \"b_reg\": " ++ toString bReg.toNat,
      "      \x7d"]

def Effect.members : Effect → List String
  | .registerWrite register before after =>
    ["      \"kind\": \"register_write\",",
      "      \"register\": " ++ toString register.toNat ++ ",",
      "      \"before\": " ++ toString before.toNat ++ ",",
      "      \"after\": " ++ toString after.toNat]
  | .memoryWrite address before after =>
    ["      \"kind\": \"memory_write\",",
      "      \"address\": " ++ toString address.toNat ++ ",",
      "      \"before\": " ++ toString before.toNat ++ ",",
      "      \"after\": " ++ toString after.toNat]
  | .divisionByZero address dividend =>
    ["      \"kind\": \"division_by_zero\",",
      "      \"address\": " ++ toString address.toNat ++ ",",
      "      \"dividend\": " ++ toString dividend.toNat]

namespace JournalEntry

def line (e : JournalEntry) : String :=
  String.intercalate ","
    ([toString e.step, toString e.offset] ++ e.instruction.fieldTexts ++ [e.effect.fieldText])

def members (e : JournalEntry) : List String :=
  ["    \"step\": " ++ toString e.step ++ ",", "    \"offset\": " ++ toString e.offset ++ ",",
    "    \"instruction\": \x7b"] ++ e.instruction.members ++
  ["    \x7d,", "    \"effect\": \x7b"] ++ e.effect.members ++ ["    \x7d"]

end JournalEntry

def Journal.lines (journal : Journal) : Format → List String
  | .csv => "step,offset,opcode,operands,effect" :: journal.map JournalEntry.line
  | .json => arrayLines (journal.map JournalEntry.members)

/-! ## JSON documents -/

namespace Json

/-- Characters other than quotes, backslashes and control characters stand for themselves. -/
def isPlain (c : Char) : Bool := 0x20 ≤ c.toNat && c != '"' && c != '\\'

theorem escape_of_isPlain {c : Char} (h : isPlain c = true) : escape c = c.toString := by
  simp only [isPlain, Bool.and_eq_true, decide_eq_true_eq, bne_iff_ne] at h
  obtain ⟨⟨hcontrol, hquote⟩, hbackslash⟩ := h
  unfold escape
  split <;> simp_all [Nat.not_lt.mpr hcontrol]

theorem toList_quote {s : String} (h : s.toList.all isPlain = true) :
    (quote s).toList = '"' :: (s.toList ++ ['"']) := by
  have hescape : s.toList.map escape = s.toList.map Char.toString :=
    List.map_congr_left fun c hc => escape_of_isPlain (List.all_eq_true.mp h c hc)
  simp [quote, hescape, List.flatMap_map]

theorem indentedItems_eq (depth : Nat) (items : List Json) :
    indentedItems depth items = items.map (indented depth) := by
  induction items with
  | nil => rfl
  | cons item items ih => rw [indentedItems, ih, List.map_cons]

end Json

namespace Files

/-- Lines that each stand behind a line feed. -/
def below (lines : List String) : List Char := lines.flatMap fun line => '\n' :: line.toList

theorem below_append (lines more : List String) :
    below (lines ++ more) = below lines ++ below more :=
  List.flatMap_append

theorem toList_textOf_cons (line : String) (lines : List String) :
    (textOf (line :: lines)).toList = line.toList ++ below lines ++ ['\n'] := by
  induction lines generalizing line with
  | nil => simp [textOf, below]
  | cons next lines ih => simp_all [textOf, below]

theorem below_objectLines (members : List String) (more : List (List String)) :
    below (objectLines (members :: more)) =
      [','].intercalate ((members :: more).map fun m => below (objectLines [m])) := by
  induction more generalizing members with
  | nil => simp
  | cons next more ih =>
    have hobjects : objectLines (members :: next :: more) =
        "  \x7b" :: members ++ "  \x7d," :: objectLines (next :: more) := rfl
    have hrest := ih next
    rw [List.map_cons] at hrest
    rw [List.map_cons, List.map_cons, List.intercalate_cons_cons, ← hrest, hobjects]
    simp [below, objectLines]

section

variable {α : Type} {doc : α → Json} {members : α → List String}

/-- An array is laid out by its objects. -/
theorem indented_list
    (h : ∀ r, ("\n  " ++ (doc r).indented 1).toList = below (objectLines [members r]))
    (records : List α) :
    (Json.list (records.map doc)).indented 0 ++ "\n" =
      textOf (arrayLines (records.map members)) := by
  apply String.toList_inj.mp
  cases records with
  | nil => simp [Json.indented, Json.indentedItems, Json.block, arrayLines, textOf]
  | cons r records =>
    have hlines : arrayLines ((r :: records).map members) =
        "[" :: (objectLines ((r :: records).map members) ++ ["]"]) := rfl
    have hobject : ((r :: records).map members).map (fun m => below (objectLines [m])) =
        (r :: records).map fun r => ("\n  " ++ (doc r).indented 1).toList := by
      rw [List.map_map]
      exact List.map_congr_left fun r _ => (h r).symm
    have hobjects := below_objectLines (members r) (records.map members)
    rw [← List.map_cons, hobject] at hobjects
    rw [hlines, toList_textOf_cons, below_append, hobjects]
    simp [Json.indented, Json.indentedItems_eq, Json.block, String.toList_intercalate,
      Function.comp_def, below]

end

end Files

theorem Dump.Entry.below_members (r : Dump.Entry) :
    ("\n  " ++ (Json.object [("address", .number r.address),
      ("value", .number r.value.toNat)]).indented 1).toList = below (objectLines [r.members]) := by
  simp (disch := decide) [Json.indented, Json.indentedMembers, Json.block, below, objectLines,
    members, Json.toList_quote]

theorem Instruction.toList_indented (i : Instruction) :
    (i.toJson.indented 2).toList = '\x7b' :: below (i.members ++ ["    \x7d"]) := by
  cases i <;>
    simp (disch := decide) [toJson, Json.indented, Json.indentedMembers, Json.block, below, members,
      Json.toList_quote, namedValues, opcode, Opcode.operands, values, Opcode.jsonName]

theorem Effect.toList_indented (e : Effect) :
    (e.toJson.indented 2).toList = '\x7b' :: below (e.members ++ ["    \x7d"]) := by
  cases e <;>
    simp (disch := decide) [toJson, Json.indented, Json.indentedMembers, Json.block, below, members,
      Json.toList_quote]

theorem JournalEntry.below_members (e : JournalEntry) :
    ("\n  " ++ e.toJson.indented 1).toList = below (objectLines [e.members]) := by
  simp (disch := decide) [toJson, Json.indented, Json.indentedMembers, Json.block, objectLines,
    members, Json.toList_quote, Instruction.toList_indented, Effect.toList_indented, below]

/-! ## Comma-separated records -/

theorem Text.unlines_eq (lines : List String) : Text.unlines lines = textOf lines := by
  apply String.toList_inj.mp
  simp [Text.unlines, textOf, List.flatMap_map]

theorem Text.any_toDigits (n : Nat) : (Nat.toDigits 10 n).any needsQuotes = false := by
  rw [List.any_eq_false]
  intro c hc
  have hword : Table.isWordChar c = true :=
    Table.isWordChar_iff.mpr (.inr (isDigit_of_mem_toDigits hc))
  simp [needsQuotes_of_isWordChar hword]

theorem Instruction.fieldTexts_eq (i : Instruction) : i.fieldTexts =
    [i.opcode.mnemonic, String.intercalate " " (i.namedValues.map valueText)] := by
  have htext : ∀ name n, valueText (name, n) = name ++ "=" ++ toString n := fun _ _ => rfl
  cases i <;>
    simp [fieldTexts, opcode, Opcode.mnemonic, namedValues, Opcode.operands, values, htext,
      ← String.toList_inj]

theorem Text.doubleQuotes_eq_self {cs : List Char} (h : '"' ∉ cs) : doubleQuotes cs = cs := by
  induction cs with
  | nil => rfl
  | cons c cs ih =>
    rw [List.mem_cons, not_or] at h
    have hrest := ih h.2
    rw [doubleQuotes] at hrest
    simp [doubleQuotes, hrest, Ne.symm h.1]

theorem Text.quote_notMem_toDigits (n : Nat) : '"' ∉ Nat.toDigits 10 n := by
  intro hm
  cases isDigit_of_mem_toDigits hm

theorem Effect.toList_fieldText_divisionByZero (address : UInt16) (dividend : Word) :
    (divisionByZero address dividend).fieldText.toList =
      '"' :: (divisionByZero address dividend).display.toList ++ ['"'] := by
  have htext : (divisionByZero address dividend).fieldText =
      "\"notice: division by zero (" ++ toString dividend.toNat ++ " mod 0), mem[" ++
        toString address.toNat ++ "] = 0\"" := rfl
  rw [htext, toList_display_divisionByZero]
  simp

theorem Effect.any_display_of_change {e : Effect} (h : e.isNotice = false) :
    e.display.toList.any Text.needsQuotes = false := by
  cases e with
  | registerWrite register before after =>
    rw [toList_display_registerWrite]
    simp only [List.any_append, Text.any_toDigits]
    decide
  | memoryWrite address before after =>
    rw [toList_display_memoryWrite]
    simp only [List.any_append, Text.any_toDigits]
    decide
  | divisionByZero address dividend => cases h

theorem Effect.csvField_display (e : Effect) : Text.csvField e.display = e.fieldText := by
  cases e with
  | registerWrite register before after =>
    rw [Text.csvField, any_display_of_change (e := registerWrite register before after) rfl]
    rfl
  | memoryWrite address before after =>
    rw [Text.csvField, any_display_of_change (e := memoryWrite address before after) rfl]
    rfl
  | divisionByZero address dividend =>
    have hdisplay := toList_display_divisionByZero address dividend
    have hcomma : (divisionByZero address dividend).display.toList.any Text.needsQuotes = true := by
      rw [hdisplay]
      simp [Text.needsQuotes]
    have hquotes : '"' ∉ (divisionByZero address dividend).display.toList := by
      rw [hdisplay]
      simp [Text.quote_notMem_toDigits]
    rw [Text.csvField, if_pos hcomma, Text.doubleQuotes_eq_self hquotes,
      ← toList_fieldText_divisionByZero, String.ofList_toList]

theorem JournalEntry.csvLine_eq_line (e : JournalEntry) : e.csvLine = e.line := by
  rw [csvLine, line, Instruction.fieldTexts_eq, Effect.csvField_display]
  rfl

/-! ## Files -/

theorem Journal.render_eq (journal : Journal) (format : Format) :
    format.render journal.csv journal.toJson = textFile (journal.lines format) := by
  cases format with
  | csv =>
    have hlines : journal.map JournalEntry.csvLine = journal.map JournalEntry.line :=
      List.map_congr_left fun e _ => e.csvLine_eq_line
    rw [Format.render, csv, Text.unlines_eq, hlines]
    rfl
  | json =>
    rw [Format.render, toJson, indented_list JournalEntry.below_members]
    rfl

theorem Dump.render_eq (dump : Dump) (format : Format) :
    format.render dump.csv dump.toJson = textFile (dump.lines format) := by
  cases format with
  | csv =>
    rw [Format.render, csv, Text.unlines_eq]
    rfl
  | json =>
    rw [Format.render, toJson, indented_list Entry.below_members]
    rfl

end RecordMachine
