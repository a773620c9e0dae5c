import RecordMachine.Proofs.Numeral
import RecordMachine.Proofs.Rows
import RecordMachine.Text.Quoted
/-!
# Lines of a source

A source is read line by line. A line yields what it yields on its own, under
the number of line feeds in front of it plus one, and at most one of a row and
an error.
-/
namespace RecordMachine.Table

/-- The texts between the line feeds. -/
def sourceLines (source : String) : List String :=
  (source.toList.splitOn '\n').map String.ofList

def lineFeeds (text : String) : Nat := text.toList.count '\n'

/-- The text stands alone between two line feeds of the source, or one of its ends, and has the
number of line feeds in front of it plus one. -/
def IsLineOf (source : String) (number : Nat) (text : String) : Prop :=
  Text.IsLine text ∧ ∃ before after : List Char, source.toList = before ++ text.toList ++ after ∧
    (∀ c ∈ before.getLast?, c = '\n') ∧ (∀ c ∈ after.head?, c = '\n') ∧
    number = before.count '\n' + 1

theorem length_splitOn (cs : List Char) : (cs.splitOn '\n').length = cs.count '\n' + 1 := by
  induction cs with
  | nil => rfl
  | cons c cs ih =>
    rw [List.splitOn_cons_eq_if_modifyHead, List.count_cons]
    split
    · rw [List.length_cons, ih]
    · rw [List.length_modifyHead, ih, Nat.add_zero]

theorem exists_place_of_splitOn {cs text : List Char} {k : Nat}
    (h : (cs.splitOn '\n')[k]? = some text) :
    '\n' ∉ text ∧ ∃ before after, cs = before ++ text ++ after ∧
      (∀ c ∈ before.getLast?, c = '\n') ∧ (∀ c ∈ after.head?, c = '\n') ∧
      k = before.count '\n' := by
  induction k generalizing cs with
  | zero =>
    by_cases hm : '\n' ∈ cs
    · obtain ⟨a, b, rfl, ha⟩ := List.eq_append_cons_of_mem hm
      rw [List.splitOn_append_cons_self_of_not_mem ha, List.getElem?_cons_zero] at h
      cases h
      exact ⟨ha, [], '\n' :: b, rfl, by simp, by simp, rfl⟩
    · rw [List.splitOn_eq_singleton hm, List.getElem?_cons_zero] at h
      cases h
      exact ⟨hm, [], [], by simp, by simp, by simp, rfl⟩
  | succ k ih =>
    by_cases hm : '\n' ∈ cs
    · obtain ⟨a, b, rfl, ha⟩ := List.eq_append_cons_of_mem hm
      rw [List.splitOn_append_cons_self_of_not_mem ha, List.getElem?_cons_succ] at h
      obtain ⟨ht, before, after, rfl, hb, hf, rfl⟩ := ih h
      refine ⟨ht, a ++ '\n' :: before, after, by simp, ?_, hf, ?_⟩
      · intro c hc
        rw [List.getLast?_append, List.getLast?_cons, Option.some_or, Option.mem_some_iff] at hc
        cases hl : before.getLast? with
        | none =>
          rw [hl, Option.getD_none] at hc
          exact hc.symm
        | some d =>
          rw [hl, Option.getD_some] at hc
          exact hc ▸ hb d hl
      · rw [List.count_append, List.count_cons_self, List.count_eq_zero_of_not_mem ha,
          Nat.zero_add]
    · rw [List.splitOn_eq_singleton hm] at h
      cases h

theorem getElem?_splitOn_count {before text after : List Char} (ht : '\n' ∉ text)
    (hb : ∀ c ∈ before.getLast?, c = '\n') (hf : ∀ c ∈ after.head?, c = '\n') :
    ((before ++ text ++ after).splitOn '\n')[before.count '\n']? = some text := by
  have hrest : ((text ++ after).splitOn '\n')[0]? = some text := by
    cases after with
    | nil => rw [List.append_nil, List.splitOn_eq_singleton ht, List.getElem?_cons_zero]
    | cons c after =>
      rw [hf c rfl, List.splitOn_append_cons_self_of_not_mem ht, List.getElem?_cons_zero]
  rcases List.eq_nil_or_concat before with rfl | ⟨b, c, rfl⟩
  · exact hrest
  · rw [List.concat_eq_append] at hb ⊢
    obtain rfl := hb c List.getLast?_concat
    have hn : (b ++ ['\n']).count '\n' = (b.splitOn '\n').length := by
      rw [length_splitOn, List.count_append, List.count_singleton_self]
    rw [hn, List.append_assoc, List.append_assoc, List.singleton_append,
      List.splitOn_append_cons_self, List.getElem?_append_right (Nat.le_refl _), Nat.sub_self]
    exact hrest

theorem isLineOf_iff {source text : String} {number : Nat} :
    IsLineOf source number text ↔
      ∃ k, (sourceLines source)[k]? = some text ∧ number = k + 1 := by
  have hk : ∀ k : Nat, (sourceLines source)[k]? = some text ↔
      (source.toList.splitOn '\n')[k]? = some text.toList := by
    intro k
    rw [sourceLines, List.getElem?_map, Option.map_eq_some_iff]
    constructor
    · rintro ⟨cs, hcs, rfl⟩
      rw [hcs, String.toList_ofList]
    · intro h
      exact ⟨text.toList, h, String.ofList_toList⟩
  simp only [hk]
  constructor
  · rintro ⟨ht, before, after, hs, hb, hf, rfl⟩
    exact ⟨_, hs ▸ getElem?_splitOn_count ht hb hf, rfl⟩
  · rintro ⟨k, h, rfl⟩
    obtain ⟨ht, before, after, hs, hb, hf, rfl⟩ := exists_place_of_splitOn h
    exact ⟨ht, before, after, hs, hb, hf, rfl⟩

theorem sourceLines_append (a b : String) :
    sourceLines (a ++ "\n" ++ b) = sourceLines a ++ sourceLines b := by
  have h : (a ++ "\n" ++ b).toList = a.toList ++ '\n' :: b.toList := by
    rw [String.toList_append, String.toList_append, List.append_assoc]
    rfl
  rw [sourceLines, h, List.splitOn_append_cons_self, List.map_append]
  rfl

theorem length_sourceLines (source : String) :
    (sourceLines source).length = lineFeeds source + 1 := by
  rw [sourceLines, List.length_map, length_splitOn]
  rfl

theorem sourceLines_of_isLine {text : String} (h : Text.IsLine text) :
    sourceLines text = [text] := by
  rw [sourceLines, List.splitOn_eq_singleton h, List.map_singleton, String.ofList_toList]

theorem splitOnP_scan (cs : List Char) :
    (scan cs).splitOnP (·.kind == .newline) = (cs.splitOn '\n').map scan := by
  -- The induction goes from line to line, since a lexeme never reaches over the end of one.
  induction hn : cs.length using Nat.strongRecOn generalizing cs with
  | ind n ih =>
    by_cases hm : '\n' ∈ cs
    · obtain ⟨a, b, rfl, ha⟩ := List.eq_append_cons_of_mem hm
      have hlt : b.length < n := by
        rw [← hn, List.length_append, List.length_cons]
        omega
      rw [scan_append_newline, List.splitOnP_append_cons_of_forall_mem (kind_ne_newline ha) _ rfl,
        ih _ hlt b rfl, List.splitOn_append_cons_self_of_not_mem ha, List.map_cons]
    · rw [List.splitOnP_eq_singleton (kind_ne_newline hm), List.splitOn_eq_singleton hm,
        List.map_singleton]

theorem readLines_eq (source : String) :
    readLines source = (sourceLines source).zipIdx.map fun (text, index) =>
      (index + 1, readLine (scan text.toList)) := by
  rw [readLines, splitOnP_scan, sourceLines, List.zipIdx_map, List.zipIdx_map, List.map_map,
    List.map_map]
  apply List.map_congr_left
  rintro ⟨cs, index⟩ _
  simp only [Function.comp_apply, Prod.map_apply, id_eq, String.toList_ofList]

theorem unlines_cons (text : String) (texts : List String) :
    Text.unlines (text :: texts) = text ++ "\n" ++ Text.unlines texts := by
  rw [Text.unlines, List.map_cons, String.join_cons]
  rfl

theorem sourceLines_unlines {texts : List String} (h : ∀ t ∈ texts, Text.IsLine t) :
    sourceLines (Text.unlines texts) = texts ++ [""] := by
  induction texts with
  | nil => exact sourceLines_of_isLine (by decide)
  | cons text texts ih =>
    obtain ⟨ht, hts⟩ := List.forall_mem_cons.mp h
    rw [unlines_cons, sourceLines_append, sourceLines_of_isLine ht, ih hts]
    rfl

theorem readLines_unlines {texts : List String} (h : ∀ t ∈ texts, Text.IsLine t) :
    readLines (Text.unlines texts) =
      ((texts.map fun t : String => readLine (scan t.toList)) ++ [LineReading.blank]).zipIdx.map
        fun (reading, index) => (index + 1, reading) := by
  have hblank : readLine (scan "".toList) = .blank := by
    rw [String.toList_empty, scan_nil, readLine_nil]
  have hm : (texts.map fun t : String => readLine (scan t.toList)) ++ [LineReading.blank] =
      (texts ++ [""]).map fun t : String => readLine (scan t.toList) := by
    rw [List.map_append, List.map_singleton, hblank]
  rw [readLines_eq, sourceLines_unlines h, hm, List.zipIdx_map, List.map_map]
  rfl

theorem mem_readLines_iff {source : String} {number : Nat} {reading : LineReading} :
    (number, reading) ∈ readLines source ↔
      ∃ text, IsLineOf source number text ∧ readLine (scan text.toList) = reading := by
  simp only [readLines_eq, List.mem_map, isLineOf_iff, Prod.exists, List.mk_mem_zipIdx_iff_getElem?,
    Prod.mk.injEq]
  constructor
  · rintro ⟨text, k, hk, rfl, rfl⟩
    exact ⟨text, ⟨k, hk, rfl⟩, rfl⟩
  · rintro ⟨text, ⟨k, hk, rfl⟩, rfl⟩
    exact ⟨text, k, hk, rfl, rfl⟩

theorem IsLineOf.unique {source text text' : String} {number : Nat}
    (h : IsLineOf source number text) (h' : IsLineOf source number text') : text = text' := by
  obtain ⟨k, hk, hn⟩ := isLineOf_iff.mp h
  obtain ⟨k', hk', hn'⟩ := isLineOf_iff.mp h'
  obtain rfl : k = k' := by omega
  exact Option.some.inj (hk.symm.trans hk')

theorem pairwise_readLines (source : String) :
    (readLines source).Pairwise (fun x y => x.1 < y.1) := by
  have hs : ((sourceLines source).zipIdx.map Prod.snd).Pairwise (· < ·) := by
    rw [List.zipIdx_map_snd]
    exact List.pairwise_lt_range' 1
  rw [readLines_eq, List.pairwise_map]
  rw [List.pairwise_map] at hs
  exact hs.imp fun h => Nat.succ_lt_succ h

theorem readLines_append (a b : String) :
    readLines (a ++ "\n" ++ b) =
      readLines a ++ (readLines b).map (Prod.map (· + (lineFeeds a + 1)) id) := by
  rw [readLines_eq, readLines_eq, readLines_eq, sourceLines_append, List.zipIdx_append,
    List.map_append, length_sourceLines, Nat.zero_add,
    @List.zipIdx_eq_map_add _ (sourceLines b) (lineFeeds a + 1), List.map_map, List.map_map]
  congr 1
  apply List.map_congr_left
  rintro ⟨text, index⟩ _
  simp only [Function.comp_apply, Prod.map_apply, id_eq, Prod.mk.injEq, and_true]
  omega

def Row.moved (lines : Nat) (row : Row) : Row := { row with line := row.line + lines }

def RowError.moved (lines : Nat) (error : RowError) : RowError :=
  { error with row := error.row + lines }

theorem rowOf?_map (n : Nat) (numbered : Nat × LineReading) :
    rowOf? (Prod.map (· + n) id numbered) = (rowOf? numbered).map (Row.moved n) := by
  obtain ⟨line, reading⟩ := numbered
  cases reading <;> rfl

theorem strayOf?_map (n : Nat) (numbered : Nat × LineReading) :
    strayOf? (Prod.map (· + n) id numbered) = (strayOf? numbered).map (RowError.moved n) := by
  obtain ⟨line, reading⟩ := numbered
  cases reading <;> rfl

theorem readRows_append (a b : String) :
    readRows (a ++ "\n" ++ b) =
      ((readRows a).1 ++ (readRows b).1.map (Row.moved (lineFeeds a + 1)),
        (readRows a).2 ++ (readRows b).2.map (RowError.moved (lineFeeds a + 1))) := by
  rw [readRows_eq, readRows_eq, readRows_eq, readLines_append, List.filterMap_append,
    List.filterMap_append, List.filterMap_map, List.filterMap_map, List.map_filterMap,
    List.map_filterMap]
  congr 2
  · congr 1
    exact funext fun numbered => rowOf?_map _ numbered
  · congr 1
    exact funext fun numbered => strayOf?_map _ numbered

theorem rowOf?_eq_some_iff {numbered : Nat × LineReading} {row : Row} :
    rowOf? numbered = some row ↔ numbered = (row.line, .cells row.cells) := by
  obtain ⟨line, reading⟩ := numbered
  cases row
  cases reading <;> simp [rowOf?]

theorem strayOf?_eq_some_iff {numbered : Nat × LineReading} {error : RowError} :
    strayOf? numbered = some error ↔
      ∃ text, error.fault = .strayCharacter text ∧ numbered = (error.row, .stray text) := by
  obtain ⟨line, reading⟩ := numbered
  cases reading with
  | blank => simp [strayOf?]
  | cells cells => simp [strayOf?]
  | stray text =>
    constructor
    · intro h
      cases h
      exact ⟨text, rfl, rfl⟩
    · rintro ⟨text', hf, hn⟩
      cases error
      cases hf
      cases hn
      rfl

theorem mem_rows_iff {source : String} {row : Row} :
    row ∈ (readRows source).1 ↔
      ∃ text, IsLineOf source row.line text ∧ readLine (scan text.toList) = .cells row.cells := by
  rw [readRows_eq, List.mem_filterMap, ← mem_readLines_iff]
  constructor
  · rintro ⟨numbered, hm, hr⟩
    exact rowOf?_eq_some_iff.mp hr ▸ hm
  · intro hm
    exact ⟨_, hm, rfl⟩

theorem mem_strays_iff {source : String} {error : RowError} :
    error ∈ (readRows source).2 ↔ ∃ text stray, IsLineOf source error.row text ∧
      readLine (scan text.toList) = .stray stray ∧ error.fault = .strayCharacter stray := by
  rw [readRows_eq, List.mem_filterMap]
  constructor
  · rintro ⟨numbered, hm, he⟩
    obtain ⟨stray, hf, rfl⟩ := strayOf?_eq_some_iff.mp he
    obtain ⟨text, ht, hr⟩ := mem_readLines_iff.mp hm
    exact ⟨text, stray, ht, hr, hf⟩
  · rintro ⟨text, stray, ht, hr, hf⟩
    exact ⟨_, mem_readLines_iff.mpr ⟨text, ht, hr⟩, strayOf?_eq_some_iff.mpr ⟨stray, hf, rfl⟩⟩

theorem pairwise_rows (source : String) :
    (readRows source).1.Pairwise (fun r s => r.line < s.line) := by
  rw [readRows_eq]
  refine List.Pairwise.filterMap rowOf? ?_ (pairwise_readLines source)
  intro x y hlt r hr s hs
  rw [rowOf?_eq_some_iff] at hr hs
  rwa [hr, hs] at hlt

theorem nodup_rows (source : String) : (readRows source).1.Nodup :=
  (pairwise_rows source).imp fun hlt heq => Nat.ne_of_lt hlt (congrArg Row.line heq)

theorem pairwise_strays (source : String) :
    (readRows source).2.Pairwise (fun d e => d.row < e.row) := by
  rw [readRows_eq]
  refine List.Pairwise.filterMap strayOf? ?_ (pairwise_readLines source)
  intro x y hlt d hd e he
  obtain ⟨_, -, hx⟩ := strayOf?_eq_some_iff.mp hd
  obtain ⟨_, -, hy⟩ := strayOf?_eq_some_iff.mp he
  rwa [hx, hy] at hlt

theorem nodup_lines (source : String) :
    ((readRows source).1.map Row.line ++ (readRows source).2.map RowError.row).Nodup := by
  rw [List.nodup_append]
  refine ⟨?_, ?_, ?_⟩
  · exact List.pairwise_map.mpr ((pairwise_rows source).imp Nat.ne_of_lt)
  · exact List.pairwise_map.mpr ((pairwise_strays source).imp Nat.ne_of_lt)
  · intro number hn number' hn' heq
    obtain ⟨row, hr, rfl⟩ := List.mem_map.mp hn
    obtain ⟨error, he, rfl⟩ := List.mem_map.mp hn'
    obtain ⟨text, ht, hcells⟩ := mem_rows_iff.mp hr
    obtain ⟨text', stray, ht', hstray, -⟩ := mem_strays_iff.mp he
    rw [ht.unique (heq ▸ ht'), hstray] at hcells
    cases hcells

theorem readLines_of_isLine {text : String} (h : Text.IsLine text) :
    readLines text = [(1, readLine (scan text.toList))] := by
  rw [readLines_eq, sourceLines_of_isLine h]
  rfl

theorem readRows_of_isLine {text : String} (h : Text.IsLine text) :
    readRows text =
      match readLine (scan text.toList) with
      | .blank => ([], [])
      | .cells cells => ([⟨1, cells⟩], [])
      | .stray stray => ([], [⟨1, .strayCharacter stray⟩]) := by
  rw [readRows_eq, readLines_of_isLine h]
  cases readLine (scan text.toList) <;> rfl

theorem readRows_eq_row_iff {text : String} (h : Text.IsLine text) {cells : List Cell} :
    readRows text = ([⟨1, cells⟩], []) ↔ readLine (scan text.toList) = .cells cells := by
  rw [readRows_of_isLine h]
  cases readLine (scan text.toList) <;> simp

theorem readRows_eq_stray_iff {text : String} (h : Text.IsLine text) {fault : RowFault} :
    readRows text = ([], [⟨1, fault⟩]) ↔
      ∃ stray, readLine (scan text.toList) = .stray stray ∧ fault = .strayCharacter stray := by
  rw [readRows_of_isLine h]
  cases readLine (scan text.toList) with
  | blank => simp
  | cells cells => simp
  | stray stray => simp [eq_comm]

/-- Reading goes line by line: what stands behind a line feed is read as if it stood alone, with
its lines numbered on. So each row and each error is that of one line on its own, the number of
the line counts the line feeds in front of it, and no line has more than one row or error. -/
theorem readRows_append_newline (a b : String) :
    readRows (a ++ "\n" ++ b) =
        ((readRows a).1 ++ (readRows b).1.map (Row.moved (lineFeeds a + 1)),
          (readRows a).2 ++ (readRows b).2.map (RowError.moved (lineFeeds a + 1))) ∧
      ∀ source,
        (∀ row, row ∈ (readRows source).1 ↔
          ∃ text, IsLineOf source row.line text ∧ readRows text = ([⟨1, row.cells⟩], [])) ∧
        (∀ error, error ∈ (readRows source).2 ↔
          ∃ text, IsLineOf source error.row text ∧ readRows text = ([], [⟨1, error.fault⟩])) ∧
        ((readRows source).1.map Row.line ++ (readRows source).2.map RowError.row).Nodup := by
  refine ⟨readRows_append a b, fun source => ⟨?_, ?_, nodup_lines source⟩⟩
  · intro row
    rw [mem_rows_iff]
    exact exists_congr fun text => and_congr_right fun ht => (readRows_eq_row_iff ht.1).symm
  · intro error
    rw [mem_strays_iff]
    refine exists_congr fun text => ?_
    rw [exists_and_left]
    exact and_congr_right fun ht => (readRows_eq_stray_iff ht.1).symm

end RecordMachine.Table
