import RecordMachine.Proofs.Reassembly
/-!
# The bytes of a listing

The lines of a listing show the bytes of the stream one after the other, and the comment of a line
can be read back as the bytes of the line. Streams with one listing are therefore equal.
-/
namespace RecordMachine

open Table

namespace Text

def readPairs : List Char → List UInt8
  | ' ' :: c :: d :: rest =>
    if isHexDigit c && isHexDigit d then
      (digitValue c * 16 + digitValue d).toUInt8 :: readPairs rest
    else []
  | _ => []

theorem readPairs_hexByte (b : UInt8) (rest : List Char) :
    readPairs (' ' :: (hexByte b ++ rest)) = b :: readPairs rest := by
  have hdigit : ∀ d < 16, isHexDigit (Nat.digitChar d).toUpper = true ∧
      digitValue (Nat.digitChar d).toUpper = d := by decide
  have hlt := b.toNat_lt
  obtain ⟨hh, hhigh⟩ := hdigit (b.toNat / 16) (by omega)
  obtain ⟨hl, hlow⟩ := hdigit (b.toNat % 16) (by omega)
  have hb : (b.toNat / 16 * 16 + b.toNat % 16).toUInt8 = b := by
    rw [Nat.div_add_mod']
    exact UInt8.ofNat_toNat
  rw [hexByte_eq, List.cons_append, List.cons_append, List.nil_append, readPairs, hh, hl, hhigh,
    hlow, hb]
  rfl

/-- What may stand behind the bytes of a line: nothing, or a remark behind two spaces. -/
def IsRemark (rest : List Char) : Prop := rest = [] ∨ ∃ remark, rest = ' ' :: ' ' :: remark

theorem readPairs_hexBytes {rest : List Char} (h : IsRemark rest) (bytes : List UInt8) :
    readPairs (' ' :: ((hexBytes bytes).toList ++ rest)) = bytes := by
  have hrest : readPairs rest = [] ∧ readPairs (' ' :: rest) = [] := by
    rcases h with rfl | ⟨remark, rfl⟩
    · exact ⟨rfl, rfl⟩
    · cases remark <;> exact ⟨rfl, rfl⟩
  rw [hexBytes, String.toList_ofList]
  induction bytes with
  | nil => exact hrest.2
  | cons b bytes ih =>
    cases bytes with
    | nil =>
      rw [List.map_singleton, List.intercalate_singleton, readPairs_hexByte, hrest.1]
    | cons c bytes =>
      rw [List.map_cons, List.map_cons, List.intercalate_cons_cons, List.append_assoc,
        List.append_assoc, readPairs_hexByte]
      exact congrArg (b :: ·) ih

end Text

namespace Listing

namespace Line

/-- The bytes that the comment of a line shows, behind the first colon of the comment. -/
def readBytes (text : String) : List UInt8 :=
  let comment := text.toList.dropWhile (· != '#')
  Text.readPairs ((comment.dropWhile (· != ':')).drop 1)

theorem exists_comment (line : Line) :
    ∃ row remark, line.render.toList = row ++ '#' :: ' ' :: (line.place.toList ++ remark) ∧
      '#' ∉ row ∧ Text.IsRemark remark := by
  have hmark : "# ".toList = ['#', ' '] := rfl
  cases hc : line.content with
  | instruction i =>
    refine ⟨i.tableRow.toList ++ List.replicate (28 - i.tableRow.toList.length + 1) ' ', [], ?_, ?_,
      .inl rfl⟩
    · rw [toList_render hc, List.append_nil]
    · intro hm
      rcases List.mem_append.mp hm with hm | hm
      · rcases Instruction.mem_tableRow hm with h | h <;> cases h
      · cases (List.mem_replicate.mp hm).2
  | undecodable error =>
    have hr : line.render = "# " ++ line.place ++ "  ERROR: " ++ error.message := by
      rw [render, hc]
      rfl
    have hremark : "  ERROR: ".toList = ' ' :: ' ' :: "ERROR: ".toList := rfl
    refine ⟨[], _, ?_, by simp, .inr ⟨"ERROR: ".toList ++ error.message.toList, rfl⟩⟩
    simp only [hr, String.toList_append, hmark, hremark, List.append_assoc, List.cons_append,
      List.nil_append]
  | tail =>
    have hr : line.render = "# " ++ line.place ++ "  TRUNCATED: " ++
        toString line.bytes.length ++ " byte(s) after the last full record" := by
      rw [render, hc]
      rfl
    have hremark : "  TRUNCATED: ".toList = ' ' :: ' ' :: "TRUNCATED: ".toList := rfl
    refine ⟨[], _, ?_, by simp, .inr ⟨"TRUNCATED: ".toList ++ ((toString line.bytes.length).toList ++
      " byte(s) after the last full record".toList), rfl⟩⟩
    simp only [hr, String.toList_append, hmark, hremark, List.append_assoc, List.cons_append,
      List.nil_append]

theorem readBytes_render (line : Line) : readBytes line.render = line.bytes := by
  obtain ⟨row, remark, hline, hrow, hremark⟩ := line.exists_comment
  have hplace : ' ' :: (line.place.toList ++ remark) =
      ' ' :: (Text.hex 4 line.offset).toList ++
        ':' :: ' ' :: ((Text.hexBytes line.bytes).toList ++ remark) := by
    rw [place]
    simp only [String.toList_append, List.append_assoc]
    rfl
  have hbefore : ∀ c ∈ row, (c != '#') = true := by
    intro c hm
    rw [bne_iff_ne]
    exact fun h => hrow (h ▸ hm)
  have hhex : ∀ c ∈ '#' :: ' ' :: (Text.hex 4 line.offset).toList, (c != ':') = true := by
    have hall := Text.forall_mem_hex (p := fun c => (c != ':') = true) (by decide) (by decide) 4
      line.offset
    exact List.forall_mem_cons.mpr ⟨by decide, List.forall_mem_cons.mpr ⟨by decide, hall⟩⟩
  rw [readBytes, hline, hplace, List.dropWhile_append_of_pos hbefore]
  have hcomment : ('#' :: (' ' :: (Text.hex 4 line.offset).toList ++
      ':' :: ' ' :: ((Text.hexBytes line.bytes).toList ++ remark))).dropWhile (· != '#') =
      ('#' :: ' ' :: (Text.hex 4 line.offset).toList) ++
        ':' :: ' ' :: ((Text.hexBytes line.bytes).toList ++ remark) := rfl
  rw [hcomment, List.dropWhile_append_of_pos hhex]
  exact Text.readPairs_hexBytes hremark line.bytes

end Line

theorem flatMap_bytes_lines (bytes : List UInt8) (strict : Bool) :
    (lines bytes strict).flatMap Line.bytes = bytes := by
  have hrecords : ∀ records : List Record,
      records.zipIdx.flatMap (fun p => (recordLine strict p.1 p.2).bytes) =
        records.flatMap Record.bytes := by
    intro records
    have hfst := congrArg (List.flatMap Record.bytes) (List.zipIdx_map_fst 0 records)
    rwa [List.flatMap_map] at hfst
  have hsplit := Record.flatMap_bytes_split bytes
  rw [lines_eq, List.flatMap_append, List.flatMap_map]
  refine (congrArg (· ++ _) (hrecords (Record.split bytes).1)).trans ?_
  cases ht : (Record.split bytes).2 with
  | nil =>
    rw [ht] at hsplit
    exact hsplit
  | cons b tail =>
    rw [ht] at hsplit
    simpa using hsplit

theorem length_lines (bytes : List UInt8) (strict : Bool) :
    (lines bytes strict).length = (bytes.length + 5) / 6 := by
  have hrecords := Record.length_fst_split bytes
  have htail := Record.length_split bytes
  rw [lines_eq, List.length_append, List.length_map, List.length_zipIdx, hrecords]
  cases ht : (Record.split bytes).2 with
  | nil =>
    rw [ht] at htail
    simp only [List.length_nil, Record.size] at htail
    simp only [List.isEmpty_nil, if_true, List.length_nil, Record.size]
    omega
  | cons b tail =>
    rw [ht] at htail
    simp only [List.length_cons, Record.size] at htail
    simp only [List.isEmpty_cons, Bool.false_eq_true, if_false, List.length_singleton, Record.size]
    omega

theorem record_or_tail {bytes : List UInt8} {strict : Bool} {before after : List Line}
    {line : Line} (h : lines bytes strict = before ++ line :: after) :
    line.offset = before.length * Record.size ∧
      (line.bytes.length = Record.size ∧ line.content ≠ .tail ∨
        after = [] ∧ 0 < line.bytes.length ∧ line.bytes.length < Record.size ∧
          line.content = .tail) := by
  have hk : (lines bytes strict)[before.length]? = some line := by simp [h]
  rcases getElem?_lines_eq_some_iff.mp hk with ⟨r, -, rfl⟩ | ⟨htail, hlast, rfl⟩
  · refine ⟨rfl, .inl ⟨rfl, ?_⟩⟩
    simp only [recordLine]
    cases if strict then r.decodeStrict else r.decode <;> simp
  · have hlength := congrArg List.length h
    rw [length_lines, List.length_append, List.length_cons, hlast, Record.length_fst_split,
      Record.size] at hlength
    have hafter : after.length = 0 := by omega
    exact ⟨rfl, .inr ⟨List.length_eq_zero_iff.mp hafter, List.length_pos_iff.mpr htail,
      Record.length_split_lt bytes, rfl⟩⟩

theorem length_flatMap_bytes_before {bytes : List UInt8} {strict : Bool} {before after : List Line}
    (h : lines bytes strict = before ++ after) (ha : after ≠ []) :
    (before.flatMap Line.bytes).length = before.length * Record.size := by
  have hfull : ∀ line ∈ before, line.bytes.length = Record.size := by
    intro line hm
    obtain ⟨front, back, rfl⟩ := List.append_of_mem hm
    rw [List.append_assoc, List.cons_append] at h
    rcases (record_or_tail h).2 with ⟨hlength, -⟩ | ⟨hnil, -⟩
    · exact hlength
    · exact absurd (List.append_eq_nil_iff.mp hnil).2 ha
  rw [List.length_flatMap, List.map_congr_left hfull, List.map_const', List.sum_replicate_nat]

theorem sourceLines_ofBytes (bytes : List UInt8) (strict : Bool) :
    sourceLines (ofBytes bytes strict) =
      ("# UVM disassembly" :: summary bytes strict :: "Command,A,B,C,D,E" ::
        (lines bytes strict).map Line.render) ++ [""] := by
  rw [ofBytes_eq]
  apply sourceLines_unlines
  intro text ht
  simp only [List.mem_cons, List.mem_map] at ht
  rcases ht with rfl | rfl | rfl | ⟨line, hm, rfl⟩
  · decide
  · exact isLine_summary bytes strict
  · decide
  · exact Line.isLine_render (isPlain_of_mem_lines hm)

theorem length_filter_isError (ls : List Line) :
    (ls.filter Line.isError).length = ls.countP (·.instruction?.isNone) := by
  rw [← List.countP_eq_length_filter]
  apply List.countP_congr
  intro line _
  rw [Line.isError, Line.instruction?]
  cases line.content <;> simp

def readBack (listing : String) : List UInt8 :=
  ((sourceLines listing).drop 3).flatMap Line.readBytes

theorem readBack_ofBytes (bytes : List UInt8) (strict : Bool) :
    readBack (ofBytes bytes strict) = bytes := by
  have hlines : ((lines bytes strict).map Line.render).flatMap Line.readBytes = bytes := by
    rw [List.flatMap_map]
    simp only [Line.readBytes_render]
    exact flatMap_bytes_lines bytes strict
  rw [readBack, sourceLines_ofBytes]
  simp only [List.cons_append, List.drop_succ_cons, List.drop_zero, List.flatMap_append, hlines]
  exact List.append_nil bytes

/-- The lines of a listing show all bytes of the stream in their order, each line at its offset. All
lines show whole records but for a shorter last one. The text has a line for each of them below
three others, the second of which counts, and no other stream has this listing. -/
theorem listing_keeps_bytes (bytes : List UInt8) (strict : Bool) :
    (lines bytes strict).flatMap Line.bytes = bytes ∧
      (∀ before line after, lines bytes strict = before ++ line :: after →
        line.offset = (before.flatMap Line.bytes).length ∧
          (line.bytes.length = 6 ∧ line.content ≠ .tail ∨
            after = [] ∧ 0 < line.bytes.length ∧ line.bytes.length < 6 ∧ line.content = .tail)) ∧
      (∃ texts, sourceLines (ofBytes bytes strict) = texts ++ [""] ∧
        texts.length = 3 + (bytes.length + 5) / 6 ∧
        let errors := (lines bytes strict).countP (·.instruction?.isNone)
        texts[1]? = some s!"# {bytes.length} bytes, {bytes.length / 6} records, {errors} errors") ∧
      ∀ other strict', ofBytes other strict' = ofBytes bytes strict → other = bytes := by
  refine ⟨flatMap_bytes_lines bytes strict, ?_, ?_, ?_⟩
  · intro before line after h
    obtain ⟨hoffset, hkind⟩ := record_or_tail h
    exact ⟨hoffset.trans (length_flatMap_bytes_before h (by simp)).symm, hkind⟩
  · refine ⟨_, sourceLines_ofBytes bytes strict, ?_, ?_⟩
    · rw [List.length_cons, List.length_cons, List.length_cons, List.length_map, length_lines]
      omega
    · rw [← length_filter_isError]
      rfl
  · intro other strict' h
    rw [← readBack_ofBytes other strict', h, readBack_ofBytes]

end Listing

end RecordMachine
