import RecordMachine.Proofs.TableRow
import RecordMachine.Proofs.Traceability
/-!
# Reassembly of listings

The listing of a stream is a table with one line for each record. The lines of
instructions are read back as these instructions and all other lines are
skipped, so the listing of any stream assembles.
-/
namespace RecordMachine

open Table

namespace Listing

theorem isLine_message_unknownTag (tag : UInt8) : Text.IsLine (CodecError.unknownTag tag).message :=
  .append (by decide) (Text.isLine_hex 2 _)

theorem isLine_message_paddingSet (opcode : Opcode) (padding : Nat) :
    Text.IsLine (CodecError.paddingSet opcode padding).message := by
  have hm : Text.IsLine opcode.mnemonic := by cases opcode <;> decide
  exact .append (.append (.append (by decide) hm) (by decide)) (Text.isLine_hex 1 _)

theorem readLine_of_comment {text : String} {cs : List Char} (hl : Text.IsLine text)
    (h : text.toList = '#' :: cs) : readLine (scan text.toList) = .blank := by
  rw [Text.IsLine, h, List.mem_cons, not_or] at hl
  rw [h, readLine_comment hl.2]

def Content.IsPlain : Content → Prop
  | .undecodable error => Text.IsLine error.message
  | .instruction _ | .tail => True

theorem isPlain_of_mem_lines {bytes : List UInt8} {strict : Bool} {line : Line}
    (h : line ∈ lines bytes strict) : line.content.IsPlain := by
  rw [lines_eq, List.mem_append] at h
  rcases h with h | h
  · obtain ⟨⟨r, index⟩, -, rfl⟩ := List.mem_map.mp h
    simp only [recordLine]
    cases hd : if strict then r.decodeStrict else r.decode with
    | ok i => trivial
    | error e =>
      cases strict with
      | false =>
        rw [if_neg Bool.false_ne_true] at hd
        rw [(Record.tag_of_decode_error hd).2]
        exact isLine_message_unknownTag r.tag
      | true =>
        rw [if_pos rfl] at hd
        rcases Record.decodeStrict_error hd with rfl | ⟨i, -, rfl⟩
        · exact isLine_message_unknownTag r.tag
        · exact isLine_message_paddingSet i.opcode _
  · split at h
    · cases h
    · rw [List.mem_singleton.mp h]
      trivial

namespace Line

def place (line : Line) : String := s!"{Text.hex 4 line.offset}: {Text.hexBytes line.bytes}"

theorem isLine_place (line : Line) : Text.IsLine line.place :=
  .append (.append (Text.isLine_hex 4 _) (by decide)) (Text.isLine_hexBytes _)

theorem isLine_alignLeft {width : Nat} {text : String} (h : Text.IsLine text) :
    Text.IsLine (Text.alignLeft width text) := by
  intro hm
  rw [Text.alignLeft, String.toList_ofList, List.rightpad, List.mem_append,
    List.mem_replicate] at hm
  rcases hm with hm | hm
  · exact h hm
  · cases hm.2

theorem isLine_render {line : Line} (h : line.content.IsPlain) : Text.IsLine line.render := by
  have hp := line.isLine_place
  cases hc : line.content with
  | instruction i =>
    rw [render, hc]
    exact .append (.append (isLine_alignLeft i.isLine_tableRow) (by decide)) hp
  | undecodable error =>
    rw [hc] at h
    rw [render, hc]
    exact .append (.append (.append (by decide) hp) (by decide)) h
  | tail =>
    rw [render, hc]
    exact .append (.append (.append (.append (by decide) hp) (by decide))
      (Text.isLine_toString _)) (by decide)

theorem exists_toList_render {line : Line} (h : ∀ i, line.content ≠ .instruction i) :
    ∃ cs, line.render.toList = '#' :: cs := by
  cases hc : line.content with
  | instruction i => exact absurd hc (h i)
  | undecodable error =>
    rw [render, hc]
    exact ⟨_, by simp only [String.toList_append]; rfl⟩
  | tail =>
    rw [render, hc]
    exact ⟨_, by simp only [String.toList_append]; rfl⟩

theorem toList_render {line : Line} {i : Instruction} (h : line.content = .instruction i) :
    line.render.toList =
      i.tableRow.toList ++ List.replicate (28 - i.tableRow.toList.length + 1) ' ' ++
        '#' :: ' ' :: line.place.toList := by
  have hr : line.render = Text.alignLeft 28 i.tableRow ++ " # " ++ line.place := by
    rw [render, h]
    rfl
  rw [hr, String.toList_append, String.toList_append, Text.alignLeft, String.toList_ofList,
    List.rightpad, List.replicate_succ']
  simp only [List.append_assoc]
  rfl

/-- What the line says as a line of a program table. -/
def reading (line : Line) : LineReading :=
  match line.instruction? with
  | some i => .cells i.cells
  | none => .blank

theorem readLine_render {line : Line} (h : line.content.IsPlain) :
    readLine (scan line.render.toList) = line.reading := by
  unfold reading
  cases hc : line.instruction? with
  | some i =>
    have hn : '\n' ∉ ' ' :: line.place.toList := by
      intro hm
      rcases List.mem_cons.mp hm with hm | hm
      · cases hm
      · exact line.isLine_place hm
    rw [toList_render (instruction?_eq_some_iff.mp hc), i.readLine_tableRow _ hn]
  | none =>
    have hi : ∀ i, line.content ≠ .instruction i := by
      intro i hi
      rw [instruction?_eq_some_iff.mpr hi] at hc
      cases hc
    obtain ⟨cs, hcs⟩ := exists_toList_render hi
    exact readLine_of_comment (isLine_render h) hcs

end Line

def headerCells : List Cell := ["Command", "A", "B", "C", "D", "E"].map .word

theorem readLine_header : readLine (scan "Command,A,B,C,D,E".toList) = .cells headerCells := by
  let names := ["Command", "A", "B", "C", "D", "E"].map String.toList
  have hw : ∀ p ∈ names, isWord p = true := by decide
  have hline : "Command,A,B,C,D,E".toList = [','].intercalate names := rfl
  have hcells : names.map Cell.read = headerCells := by
    rw [List.map_congr_left fun p hp => Cell.read_word (hw p hp)]
    rfl
  rw [hline, ← hcells]
  apply readLine_intercalate
  · exact fun p hp => .word (hw p hp)
  · rw [Cell.read_word (by decide)]
    rfl

def summary (bytes : List UInt8) (strict : Bool) : String :=
  let errors := ((lines bytes strict).filter Line.isError).length
  s!"# {bytes.length} bytes, {bytes.length / Record.size} records, {errors} errors"

theorem ofBytes_eq (bytes : List UInt8) (strict : Bool) :
    ofBytes bytes strict =
      Text.unlines ("# UVM disassembly" :: summary bytes strict :: "Command,A,B,C,D,E" ::
        (lines bytes strict).map Line.render) := rfl

theorem isLine_summary (bytes : List UInt8) (strict : Bool) : Text.IsLine (summary bytes strict) :=
  .append (.append (.append (.append (.append (.append (by decide) (Text.isLine_toString _))
    (by decide)) (Text.isLine_toString _)) (by decide)) (Text.isLine_toString _)) (by decide)

theorem exists_toList_summary (bytes : List UInt8) (strict : Bool) :
    ∃ cs, (summary bytes strict).toList = '#' :: cs := by
  rw [summary]
  exact ⟨_, by simp only [String.toList_append]; rfl⟩

theorem readLines_listing (bytes : List UInt8) (strict : Bool) :
    readLines (ofBytes bytes strict) =
      (LineReading.blank :: .blank :: .cells headerCells ::
        ((lines bytes strict).map Line.reading ++ [.blank])).zipIdx.map fun (reading, index) =>
          (index + 1, reading) := by
  obtain ⟨cs, hcs⟩ := exists_toList_summary bytes strict
  have hl : ∀ text ∈ "# UVM disassembly" :: summary bytes strict :: "Command,A,B,C,D,E" ::
      (lines bytes strict).map Line.render, Text.IsLine text := by
    intro text ht
    simp only [List.mem_cons, List.mem_map] at ht
    rcases ht with rfl | rfl | rfl | ⟨line, hm, rfl⟩
    · decide
    · exact isLine_summary bytes strict
    · decide
    · exact Line.isLine_render (isPlain_of_mem_lines hm)
  have hr : ((lines bytes strict).map Line.render).map (fun t => readLine (scan t.toList)) =
      (lines bytes strict).map Line.reading := by
    rw [List.map_map]
    exact List.map_congr_left fun line hm => Line.readLine_render (isPlain_of_mem_lines hm)
  have ht : readLine (scan "# UVM disassembly".toList) = .blank :=
    readLine_of_comment (by decide) rfl
  rw [ofBytes_eq, readLines_unlines hl]
  simp only [List.map_cons, List.cons_append, hr, ht, readLine_header,
    readLine_of_comment (isLine_summary bytes strict) hcs]

theorem filterMap_rowOf?_reading (ls : List Line) (n : Nat) :
    (((ls.map Line.reading ++ [LineReading.blank]).zipIdx (n + 3)).map fun (reading, index) =>
        (index + 1, reading)).filterMap rowOf? =
      ((ls.zipIdx n).filterMap fun (line, index) => line.instruction?.map (index, ·)).map
        fun (index, i) => Row.mk (4 + index) i.cells := by
  induction ls generalizing n with
  | nil => rfl
  | cons line ls ih =>
    have hn : n + 3 + 1 = n + 1 + 3 := by omega
    have hhead : rowOf? (n + 3 + 1, line.reading) =
        line.instruction?.map fun i => Row.mk (4 + n) i.cells := by
      have hline : n + 3 + 1 = 4 + n := by omega
      rw [hline, Line.reading]
      cases line.instruction? <;> rfl
    rw [List.map_cons, List.cons_append, List.zipIdx_cons, List.zipIdx_cons, List.map_cons,
      List.filterMap_cons, List.filterMap_cons, hn, ih]
    simp only [hhead]
    cases line.instruction? with
    | none => rfl
    | some i => rfl

theorem strayOf?_reading {ls : List Line} {numbered : Nat × LineReading}
    (h : numbered.2 ∈ LineReading.blank :: .blank :: .cells headerCells ::
      (ls.map Line.reading ++ [.blank])) : strayOf? numbered = none := by
  obtain ⟨line, reading⟩ := numbered
  simp only [List.mem_cons, List.mem_append, List.mem_map, List.not_mem_nil, or_false] at h
  rcases h with rfl | rfl | rfl | ⟨l, -, rfl⟩ | rfl
  · rfl
  · rfl
  · rfl
  · unfold Line.reading
    cases l.instruction? <;> rfl
  · rfl

theorem readRows_listing (bytes : List UInt8) (strict : Bool) :
    readRows (ofBytes bytes strict) =
      (⟨3, headerCells⟩ :: (recognised (lines bytes strict)).map fun (index, i) =>
        ⟨4 + index, i.cells⟩, []) := by
  rw [readRows_eq, readLines_listing]
  congr 1
  · rw [List.zipIdx_cons, List.zipIdx_cons, List.zipIdx_cons, List.map_cons, List.map_cons,
      List.map_cons, recognised, ← filterMap_rowOf?_reading]
    rfl
  · rw [List.filterMap_eq_nil_iff]
    intro numbered hm
    obtain ⟨⟨reading, index⟩, hr, rfl⟩ := List.mem_map.mp hm
    exact strayOf?_reading (List.fst_mem_of_mem_zipIdx hr)

end Listing

namespace Assembly

theorem assembleRow_cells (i : Instruction) (line : Nat) :
    assembleRow ⟨line, i.cells⟩ = .ok ⟨line, i, i.record⟩ := by
  simp only [assembleRow, Row.instruction, i.read_cells, i.encode_eq, Except.mapError, bind,
    Except.bind, pure, Except.pure]

def stepsOf (found : List (Nat × Instruction)) : List Step :=
  found.map fun (index, i) => ⟨4 + index, i, i.record⟩

theorem ofSource_listing_eq (bytes : List UInt8) (strict : Bool) :
    ofSource (Listing.ofBytes bytes strict) =
      .ok (ofSteps (stepsOf (Listing.recognised (Listing.lines bytes strict)))) := by
  have hlisting := Listing.readRows_listing bytes strict
  have hmark : stripMark (Listing.ofBytes bytes strict) = Listing.ofBytes bytes strict :=
    stripMark_of_strays_nil (by rw [hlisting])
  have hrows : ∀ found : List (Nat × Instruction),
      (found.map fun (index, i) => Row.mk (4 + index) i.cells).map assembleRow =
        (stepsOf found).map .ok := by
    intro found
    rw [stepsOf, List.map_map, List.map_map]
    exact List.map_congr_left fun x _ => assembleRow_cells x.2 (4 + x.1)
  apply ofSource_of_rows (hmark.symm ▸ hlisting)
  exact hrows _

theorem program_stepsOf (found : List (Nat × Instruction)) :
    (ofSteps (stepsOf found)).program = found.map Prod.snd := by
  rw [ofSteps, stepsOf, List.map_map]
  rfl

theorem bytes_stepsOf (found : List (Nat × Instruction)) :
    (ofSteps (stepsOf found)).bytes =
      Program.stream (found.map Prod.snd) := by
  rw [Program.stream, ofSteps, stepsOf, List.flatMap_map, List.flatMap_map, List.flatMap_map]

/-- The listing of any stream assembles to the instructions among its lines, each logged under
the line of its record. A strict program's stream comes back byte for byte. -/
theorem ofSource_listing (bytes : List UInt8) (strict : Bool) :
    ∃ a records, ofSource (Listing.ofBytes bytes strict) = .ok a ∧
      a.program = (Listing.recognised (Listing.lines bytes strict)).map Prod.snd ∧
      a.program.mapM Instruction.encode = .ok records ∧
      a.bytes = records.flatMap Record.bytes ∧
      a.log.map Log.Entry.row =
        (Listing.recognised (Listing.lines bytes strict)).map (fun found => 4 + found.1) ∧
      ∀ p, Listing.program bytes true = .ok p → a.program = p ∧ a.bytes = bytes := by
  let found := Listing.recognised (Listing.lines bytes strict)
  refine ⟨ofSteps (stepsOf found), (found.map Prod.snd).map Instruction.record,
    ofSource_listing_eq bytes strict, program_stepsOf found, ?_, bytes_stepsOf found, ?_, ?_⟩
  · rw [program_stepsOf]
    exact Program.records_eq _
  · rw [row_ofSteps, stepsOf, List.map_map]
    rfl
  · intro p hp
    have hb := Listing.program_strict_eq_ok_iff.mp hp
    have hf : found.map Prod.snd = p := by
      apply Listing.map_snd_recognised
      rw [hb]
      exact Listing.content_lines_stream p strict
    rw [program_stepsOf, bytes_stepsOf, hf]
    exact ⟨rfl, hb.symm⟩

end Assembly

end RecordMachine
