import Mathlib.Logic.Relation
import RecordMachine.Proofs.Lines
import RecordMachine.Proofs.Parts
/-!
# Blanks and comments

Blanks at the ends of a cell and a comment at the end of a line are read over, so a table with
more of them has the same rows and the same errors.
-/
namespace RecordMachine.Table

open Parts

theorem scan_parts {d : Char} {separator : Lexeme} (hw : isWordChar d = false)
    (hs : isSpace d = false) (hd : ∀ more, scan (d :: more) = separator :: scan more)
    {before part after : List Char} (hb : ∀ c ∈ before.getLast?, c = d)
    (ha : ∀ c ∈ after.head?, c = d) (hc : d ≠ '\n' → '#' ∉ before ++ part) :
    scan (before ++ part ++ after) = scan before ++ scan part ++ scan after ∧
      (∀ l ∈ (scan before).getLast?, l = separator) ∧ ∀ l ∈ (scan after).head?, l = separator := by
  have hcut : ∀ front more, (d ≠ '\n' → '#' ∉ front) →
      scan (front ++ d :: more) = scan front ++ separator :: scan more := by
    intro front more hfront
    rw [scan_append hw (fun h => by simp [hs] at h) hfront, hd]
  have hafter : scan (part ++ after) = scan part ++ scan after ∧
      ∀ l ∈ (scan after).head?, l = separator := by
    cases after with
    | nil => simp [scan_nil]
    | cons c more =>
      obtain rfl := ha c rfl
      rw [hcut part more fun h hm => hc h (List.mem_append_right _ hm), hd]
      simp
  rcases List.eq_nil_or_concat before with rfl | ⟨front, c, rfl⟩
  · exact ⟨by simp [scan_nil, hafter.1], by simp [scan_nil], hafter.2⟩
  · have hcd : c = d := by
      apply hb
      simp
    subst hcd
    have hfront : c ≠ '\n' → '#' ∉ front := by
      intro h hm
      apply hc h
      simp [hm]
    have hassoc : front.concat c ++ part ++ after = front ++ c :: (part ++ after) := by simp
    have hbefore : scan (front.concat c) = scan front ++ [separator] := by
      rw [List.concat_eq_append, hcut front [] hfront, scan_nil]
    rw [hassoc, hcut front _ hfront, hafter.1, hbefore]
    exact ⟨by simp, by simp, hafter.2⟩

theorem isWordChar_eq_false_of_isSpace {c : Char} (h : isSpace c = true) :
    isWordChar c = false := by
  simp only [isSpace, Bool.or_eq_true, beq_iff_eq] at h
  rcases h with ((rfl | rfl) | rfl) | rfl <;> rfl

theorem scan_append_spaces {cs spaces : List Char}
    (hl : ∀ c ∈ cs.getLast?, isSpace c = false) (hc : '#' ∉ cs)
    (hs : ∀ c ∈ spaces, isSpace c = true) : scan (cs ++ spaces) = scan cs ++ scan spaces := by
  cases spaces with
  | nil => simp [scan_nil]
  | cons d spaces =>
    have hw := isWordChar_eq_false_of_isSpace (hs d List.mem_cons_self)
    exact scan_append hw (fun _ => hl) (fun _ => hc) spaces

theorem scan_spaces_append {cs spaces : List Char}
    (hh : ∀ c ∈ cs.head?, isSpace c = false) (hs : ∀ c ∈ spaces, isSpace c = true) :
    scan (spaces ++ cs) = scan spaces ++ scan cs := by
  cases spaces with
  | nil => simp [scan_nil]
  | cons d spaces =>
    have hd := hs d List.mem_cons_self
    have hstop : cs.takeWhile isSpace = [] := by
      cases cs with
      | nil => rfl
      | cons c cs => simp [hh c rfl]
    have hr : runLength isSpace (spaces ++ cs) = spaces.length := by
      have hrun : ∀ c ∈ spaces, isSpace c = true := fun c hc => hs c (List.mem_cons_of_mem _ hc)
      rw [runLength, List.takeWhile_append_of_pos hrun, hstop, List.append_nil]
    rw [List.cons_append, scan_cons, longest_of_isSpace hd, hr, scan_spaces hs,
      List.take_left, List.drop_left]
    rfl

/-- Two groups of lexemes that spell the same cell and have the same first stray character. -/
structure SameCell (group other : List Lexeme) : Prop where
  cell : Cell.ofLexemes group = Cell.ofLexemes other
  stray : group.find? (·.kind == .stray) = other.find? (·.kind == .stray)

theorem find?_stray_of_skipped {skipped : List Lexeme} (h : ∀ l ∈ skipped, l.isSkipped = true) :
    skipped.find? (·.kind == .stray) = none := by
  rw [List.find?_eq_none]
  intro l hl
  simp [(kind_of_isSkipped (h l hl)).2]

theorem SameCell.append_skipped (group : List Lexeme) {skipped : List Lexeme}
    (h : ∀ l ∈ skipped, l.isSkipped = true) : SameCell (group ++ skipped) group where
  cell := Cell.ofLexemes_append_skipped h
  stray := by rw [List.find?_append, find?_stray_of_skipped h, Option.or_none]

theorem SameCell.skipped_append (group : List Lexeme) {skipped : List Lexeme}
    (h : ∀ l ∈ skipped, l.isSkipped = true) : SameCell (skipped ++ group) group where
  cell := by
    have hfilter : (skipped ++ group).filter (!·.isSkipped) = group.filter (!·.isSkipped) := by
      have hnone : skipped.filter (!·.isSkipped) = [] := by
        rw [List.filter_eq_nil_iff]
        intro l hl
        simp [h l hl]
      rw [List.filter_append, hnone, List.nil_append]
    have htext : Cell.sourceText (skipped ++ group) = Cell.sourceText group := by
      rw [Cell.sourceText, List.dropWhile_append_of_pos h, Cell.sourceText]
    rw [Cell.ofLexemes, Cell.ofLexemes, hfilter, htext]
  stray := by rw [List.find?_append, find?_stray_of_skipped h, Option.none_or]

theorem sameCell_append_spaces {part spaces : List Char} (hc : '#' ∉ part)
    (hs : ∀ c ∈ spaces, isSpace c = true) : SameCell (scan (part ++ spaces)) (scan part) := by
  -- The spaces may lengthen a blank that the part ends in.
  obtain ⟨core, tail, rfl, hl, ht⟩ := exists_last_part (!isSpace ·) part
  simp only [Bool.not_eq_true', Bool.not_eq_false'] at hl ht
  have hcore : '#' ∉ core := fun hm => hc (List.mem_append_left _ hm)
  have hall : ∀ c ∈ tail ++ spaces, isSpace c = true := by
    intro c hm
    exact (List.mem_append.mp hm).elim (ht c) (hs c)
  have hlong := SameCell.append_skipped (scan core) (isSkipped_of_mem_scan_spaces hall)
  have hshort := SameCell.append_skipped (scan core) (isSkipped_of_mem_scan_spaces ht)
  rw [List.append_assoc, scan_append_spaces hl hcore hall, scan_append_spaces hl hcore ht]
  exact ⟨hlong.cell.trans hshort.cell.symm, hlong.stray.trans hshort.stray.symm⟩

theorem sameCell_spaces_append {part spaces : List Char}
    (hs : ∀ c ∈ spaces, isSpace c = true) : SameCell (scan (spaces ++ part)) (scan part) := by
  obtain ⟨front, core, rfl, ht, hh⟩ := exists_first_part (!isSpace ·) part
  simp only [Bool.not_eq_true', Bool.not_eq_false'] at hh ht
  have hall : ∀ c ∈ spaces ++ front, isSpace c = true := by
    intro c hm
    exact (List.mem_append.mp hm).elim (hs c) (ht c)
  have hlong := SameCell.skipped_append (scan core) (isSkipped_of_mem_scan_spaces hall)
  have hshort := SameCell.skipped_append (scan core) (isSkipped_of_mem_scan_spaces ht)
  rw [← List.append_assoc, scan_spaces_append hh hall, scan_spaces_append hh ht]
  exact ⟨hlong.cell.trans hshort.cell.symm, hlong.stray.trans hshort.stray.symm⟩

/-- A group between separators can be exchanged for one of the same cell. -/
theorem readLine_congr {before after group other : List Lexeme} (h : SameCell group other)
    (hb : ∀ l ∈ before.getLast?, (l.kind == .comma) = true)
    (ha : ∀ l ∈ after.head?, (l.kind == .comma) = true)
    (hg : ∀ l ∈ group, (l.kind == .comma) = false) (ho : ∀ l ∈ other, (l.kind == .comma) = false) :
    readLine (before ++ group ++ after) = readLine (before ++ other ++ after) := by
  obtain ⟨left, right, hsplit⟩ := exists_splitOnP hb ha
  have hcells : ((before ++ group ++ after).splitOnP (·.kind == .comma)).map Cell.ofLexemes =
      ((before ++ other ++ after).splitOnP (·.kind == .comma)).map Cell.ofLexemes := by
    rw [hsplit group hg, hsplit other ho, List.map_append, List.map_cons, h.cell,
      List.map_append, List.map_cons]
  have hstray : (before ++ group ++ after).find? (·.kind == .stray) =
      (before ++ other ++ after).find? (·.kind == .stray) := by
    simp only [List.find?_append, h.stray]
  simp only [readLine, hcells, hstray]

theorem readLine_append_skipped (lexemes : List Lexeme) {skipped : List Lexeme}
    (h : ∀ l ∈ skipped, l.isSkipped = true) : readLine (lexemes ++ skipped) = readLine lexemes := by
  obtain ⟨before, group, rfl, hb, hg⟩ :=
    exists_last_part (fun l : Lexeme => l.kind == .comma) lexemes
  have hall : ∀ l ∈ group ++ skipped, (l.kind == .comma) = false := by
    intro l hl
    rcases List.mem_append.mp hl with hl | hl
    · exact hg l hl
    · exact (kind_of_isSkipped (h l hl)).1
  have hline : readLine (before ++ (group ++ skipped) ++ []) = readLine (before ++ group ++ []) :=
    readLine_congr (SameCell.append_skipped group h) hb (by simp) hall hg
  simpa using hline

def code (line : List Char) : List Char := line.takeWhile (· != '#')

theorem notMem_code (line : List Char) : '#' ∉ code line := by
  intro h
  simpa using List.mem_takeWhile_imp h

theorem code_eq_self {line : List Char} (h : '#' ∉ line) : code line = line := by
  rw [code, List.takeWhile_eq_self_iff]
  intro c hc
  exact bne_iff_ne.mpr fun he => h (he ▸ hc)

theorem code_append_of_notMem {left : List Char} (h : '#' ∉ left) (right : List Char) :
    code (left ++ right) = left ++ code right := by
  rw [code, List.takeWhile_append_of_pos]
  · rfl
  · intro c hc
    exact bne_iff_ne.mpr fun he => h (he ▸ hc)

theorem code_append_of_mem {left : List Char} (h : '#' ∈ left) (right : List Char) :
    code (left ++ right) = code left := by
  obtain ⟨front, back, rfl, hf⟩ := List.eq_append_cons_of_mem h
  rw [List.append_assoc, code_append_of_notMem hf, code_append_of_notMem hf]
  rfl

theorem readLine_scan_code {line : List Char} (h : '\n' ∉ line) :
    readLine (scan line) = readLine (scan (code line)) := by
  by_cases hc : '#' ∈ line
  · obtain ⟨front, back, rfl, hf⟩ := List.eq_append_cons_of_mem hc
    have hback : '\n' ∉ back := by
      intro hm
      simp [hm] at h
    have hcode : code (front ++ '#' :: back) = front := by
      rw [code_append_of_notMem hf]
      simp [code]
    have hskip : ∀ l ∈ scan ('#' :: back), l.isSkipped = true := by
      rw [scan_comment hback]
      simp [Lexeme.isSkipped]
    rw [hcode, scan_append (by decide) (fun hs => by cases hs) (fun _ => hf),
      readLine_append_skipped _ hskip]
  · rw [code_eq_self hc]

theorem readLine_comment_behind {line text : List Char} (hl : '\n' ∉ line) (ht : '\n' ∉ text) :
    readLine (scan (line ++ '#' :: text)) = readLine (scan line) := by
  have hn : '\n' ∉ line ++ '#' :: text := by simp [hl, ht]
  have hcode : code (line ++ '#' :: text) = code line := by
    by_cases hc : '#' ∈ line
    · exact code_append_of_mem hc _
    · rw [code_append_of_notMem hc, code_eq_self hc]
      simp [code]
  rw [readLine_scan_code hn, hcode, ← readLine_scan_code hl]

theorem readLine_part {before part other after : List Char}
    (h : SameCell (scan part) (scan other)) (hb : ∀ c ∈ before.getLast?, c = ',')
    (ha : ∀ c ∈ after.head?, c = ',') (hc : '#' ∉ before) (hp : ',' ∉ part ∧ '#' ∉ part)
    (ho : ',' ∉ other ∧ '#' ∉ other) :
    readLine (scan (before ++ part ++ after)) = readLine (scan (before ++ other ++ after)) := by
  have hscan : ∀ cs, '#' ∉ cs →
      scan (before ++ cs ++ after) = scan before ++ scan cs ++ scan after ∧
      (∀ l ∈ (scan before).getLast?, l = comma) ∧ ∀ l ∈ (scan after).head?, l = comma := by
    intro cs hcs
    exact scan_parts rfl rfl scan_comma hb ha fun _ hm => (List.mem_append.mp hm).elim hc hcs
  obtain ⟨hpart, hlast, hhead⟩ := hscan part hp.2
  rw [hpart, (hscan other ho.2).1]
  apply readLine_congr h
  · intro l hl
    rw [hlast l hl]
    rfl
  · intro l hl
    rw [hhead l hl]
    rfl
  · exact kind_ne_of_notMem rfl hp.1
  · exact kind_ne_of_notMem rfl ho.1

theorem notMem_spaces {spaces : List Char} (h : ∀ c ∈ spaces, isSpace c = true) :
    ',' ∉ spaces ∧ '#' ∉ spaces ∧ '\n' ∉ spaces := by
  refine ⟨?_, ?_, ?_⟩ <;> exact fun hm => by cases h _ hm

/-- Spaces beside a separator and at the ends of a line are read over. -/
theorem readLine_spaces_between {left right spaces : List Char} (hl : '\n' ∉ left)
    (hr : '\n' ∉ right) (hs : ∀ c ∈ spaces, isSpace c = true)
    (hgap : (∀ c ∈ left.getLast?, c = ',') ∨ ∀ c ∈ right.head?, c = ',') :
    readLine (scan (left ++ spaces ++ right)) = readLine (scan (left ++ right)) := by
  obtain ⟨hcomma, hhash, hfeed⟩ := notMem_spaces hs
  have hshort : '\n' ∉ left ++ right := by simp [hl, hr]
  have hlong : '\n' ∉ left ++ spaces ++ right := by simp [hl, hr, hfeed]
  rw [readLine_scan_code hlong, readLine_scan_code hshort]
  by_cases hc : '#' ∈ left
  · rw [List.append_assoc, code_append_of_mem hc, code_append_of_mem hc]
  · have hcs : '#' ∉ left ++ spaces := by simp [hc, hhash]
    rw [code_append_of_notMem hcs, code_append_of_notMem hc]
    have hright := notMem_code right
    rcases hgap with hgap | hgap
    · obtain ⟨part, after, hcode, hpart, ha⟩ := exists_first_part (· == ',') (code right)
      have hpc : ',' ∉ part := fun hm => by simpa using hpart _ hm
      have hph : '#' ∉ part := by
        intro hm
        simp [hcode, hm] at hright
      have hcell : SameCell (scan (spaces ++ part)) (scan part) := sameCell_spaces_append hs
      have hline := readLine_part hcell hgap (fun c hm => beq_iff_eq.mp (ha c hm)) hc
        (by simp [hcomma, hhash, hpc, hph]) ⟨hpc, hph⟩
      rw [hcode]
      simpa using hline
    · obtain ⟨before, part, rfl, hb, hpart⟩ := exists_last_part (· == ',') left
      have hpc : ',' ∉ part := fun hm => by simpa using hpart _ hm
      have hph : '#' ∉ part := fun hm => hc (List.mem_append_right _ hm)
      have ha : ∀ c ∈ (code right).head?, c = ',' := by
        intro c hm
        apply hgap
        cases right with
        | nil => simp [code] at hm
        | cons d more =>
          rw [code, List.takeWhile_cons] at hm
          split at hm
          · simpa using hm
          · simp at hm
      have hbefore : '#' ∉ before := fun hm => hc (List.mem_append_left _ hm)
      have hcell : SameCell (scan (part ++ spaces)) (scan part) := sameCell_append_spaces hph hs
      have hline := readLine_part hcell (fun c hm => beq_iff_eq.mp (hb c hm)) ha hbefore
        (by simp [hcomma, hhash, hpc, hph]) ⟨hpc, hph⟩
      simpa using hline

theorem readRows_congr {before line other after : List Char}
    (h : readLine (scan line) = readLine (scan other)) (hb : ∀ c ∈ before.getLast?, c = '\n')
    (ha : ∀ c ∈ after.head?, c = '\n') (hl : '\n' ∉ line) (ho : '\n' ∉ other) :
    readRows (String.ofList (before ++ line ++ after)) =
      readRows (String.ofList (before ++ other ++ after)) := by
  have hscan : ∀ cs, scan (before ++ cs ++ after) = scan before ++ scan cs ++ scan after ∧
      (∀ l ∈ (scan before).getLast?, l = ⟨.newline, ['\n']⟩) ∧
      ∀ l ∈ (scan after).head?, l = ⟨.newline, ['\n']⟩ := fun cs =>
    scan_parts rfl rfl scan_newline hb ha fun hn => absurd rfl hn
  obtain ⟨-, hlast, hhead⟩ := hscan line
  have hb' : ∀ l ∈ (scan before).getLast?, (l.kind == .newline) = true := by
    intro l hm
    rw [hlast l hm]
    rfl
  have ha' : ∀ l ∈ (scan after).head?, (l.kind == .newline) = true := by
    intro l hm
    rw [hhead l hm]
    rfl
  obtain ⟨front, back, hsplit⟩ := exists_splitOnP hb' ha'
  have hlines : readLines (String.ofList (before ++ line ++ after)) =
      readLines (String.ofList (before ++ other ++ after)) := by
    simp only [readLines, String.toList_ofList]
    rw [(hscan line).1, (hscan other).1, hsplit _ (kind_ne_newline hl),
      hsplit _ (kind_ne_newline ho)]
    simp only [List.zipIdx_append, List.zipIdx_cons, List.map_append, List.map_cons, h]
  rw [readRows_eq, readRows_eq, hlines]

/-- The ends of a text, and the places beside a separator or a line feed. -/
def IsGap (before after : List Char) : Prop :=
  (∀ c ∈ before.getLast?, c = ',' ∨ c = '\n') ∨ ∀ c ∈ after.head?, c = ',' ∨ c = '\n'

/-- The second text is the first one with blanks put into a gap, or with a comment put at the end
of a line. -/
inductive Respaced : List Char → List Char → Prop
  | spaces {before after spaces : List Char} (hgap : IsGap before after)
      (hs : ∀ c ∈ spaces, isSpace c = true) :
      Respaced (before ++ after) (before ++ spaces ++ after)
  | comment {before after text : List Char} (hend : ∀ c ∈ after.head?, c = '\n')
      (ht : '\n' ∉ text) : Respaced (before ++ after) (before ++ '#' :: text ++ after)

theorem readRows_of_respaced {source other : List Char} (h : Respaced source other) :
    readRows (String.ofList other) = readRows (String.ofList source) := by
  cases h with
  | @spaces before after spaces hgap hs =>
    obtain ⟨above, left, rfl, hb, hl⟩ := exists_last_part (· == '\n') before
    obtain ⟨right, below, rfl, hr, ha⟩ := exists_first_part (· == '\n') after
    simp only [beq_iff_eq, beq_eq_false_iff_ne] at hb hl hr ha
    have hleft : '\n' ∉ left := fun hm => hl _ hm rfl
    have hright : '\n' ∉ right := fun hm => hr _ hm rfl
    have hgapLine : (∀ c ∈ left.getLast?, c = ',') ∨ ∀ c ∈ right.head?, c = ',' := by
      refine hgap.imp (fun hg c hm => ?_) fun hg c hm => ?_
      · have hlast : (above ++ left).getLast? = some c := by
          rw [List.getLast?_append, Option.mem_def.mp hm, Option.some_or]
        exact (hg c hlast).resolve_right (hl c (List.mem_of_getLast? hm))
      · have hhead : (right ++ below).head? = some c := by
          rw [List.head?_append, Option.mem_def.mp hm, Option.some_or]
        exact (hg c hhead).resolve_right (hr c (List.mem_of_head? hm))
    have hline := readLine_spaces_between hleft hright hs hgapLine
    have hrows := readRows_congr hline hb ha (by simp [hleft, hright, notMem_spaces hs])
      (by simp [hleft, hright])
    simpa using hrows
  | @comment before after text hend ht =>
    obtain ⟨above, left, rfl, hb, hl⟩ := exists_last_part (· == '\n') before
    simp only [beq_iff_eq, beq_eq_false_iff_ne] at hb hl
    have hleft : '\n' ∉ left := fun hm => hl _ hm rfl
    have hrows := readRows_congr (readLine_comment_behind hleft ht) hb hend
      (by simp [hleft, ht]) hleft
    simpa using hrows

/-- The second text is the first one with any blanks and comments put in. -/
def IsLaidOut (source other : List Char) : Prop := Relation.ReflTransGen Respaced source other

theorem readRows_of_isLaidOut {source other : List Char} (h : IsLaidOut source other) :
    readRows (String.ofList other) = readRows (String.ofList source) := by
  induction h with
  | refl => rfl
  | tail _ hstep ih => exact (readRows_of_respaced hstep).trans ih

def withReturns (cs : List Char) : List Char :=
  cs.flatMap fun c => if c = '\n' then ['\r', '\n'] else [c]

theorem isLaidOut_withReturns (before cs : List Char) :
    IsLaidOut (before ++ cs) (before ++ withReturns cs) := by
  induction cs generalizing before with
  | nil => exact .refl
  | cons c cs ih =>
    by_cases hc : c = '\n'
    · subst hc
      have hgap : IsGap before ('\n' :: cs) := .inr (by simp)
      have hstep : Respaced (before ++ '\n' :: cs) (before ++ ['\r'] ++ '\n' :: cs) :=
        .spaces hgap (by simp [isSpace])
      have hrest := ih (before ++ ['\r', '\n'])
      have hassoc : before ++ ['\r', '\n'] ++ cs = before ++ ['\r'] ++ '\n' :: cs := by simp
      have hret : withReturns ('\n' :: cs) = '\r' :: '\n' :: withReturns cs := rfl
      rw [hassoc] at hrest
      have hboth : IsLaidOut (before ++ '\n' :: cs) (before ++ ['\r', '\n'] ++ withReturns cs) :=
        .head hstep hrest
      rw [hret]
      simpa using hboth
    · have hret : withReturns (c :: cs) = c :: withReturns cs := by simp [withReturns, hc]
      rw [hret]
      simpa using ih (before ++ [c])

/-- Layout plays no part: with any blanks put beside separators and line feeds and at the ends of
the text, and any comments put at the ends of lines, a table has the same rows under the same line
numbers and the same errors. So line feeds may be carriage returns with line feeds. -/
theorem readRows_layout (source : String) :
    (∀ other : String, IsLaidOut source.toList other.toList → readRows other = readRows source) ∧
      readRows (String.ofList (withReturns source.toList)) = readRows source := by
  have hall : ∀ cs, IsLaidOut source.toList cs → readRows (String.ofList cs) = readRows source := by
    intro cs h
    rw [readRows_of_isLaidOut h, String.ofList_toList]
  refine ⟨fun other h => ?_, hall _ (isLaidOut_withReturns [] source.toList)⟩
  rw [← hall _ h, String.ofList_toList]

end RecordMachine.Table
