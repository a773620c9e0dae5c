import RecordMachine.Proofs.LexicalGrammar
/-!
# Maximal munch

A text is cut into lexemes in one way only: at each place the longest text that a rule matches is
cut off or, where no rule matches, a single character. The tokens of a source are these lexemes at
their places, without the blanks and the comments.
-/
namespace RecordMachine.Table

/-- The text is the longest one that a rule matches at its place, by this rule and no other. -/
structure IsLongest (kind : LexemeKind) (text after : List Char) : Prop where
  matched : text ∈ kind.rule
  longest : ∀ (other : LexemeKind) (cs : List Char), cs ∈ other.rule → cs <+: text ++ after →
    cs.length ≤ text.length
  unique : ∀ other : LexemeKind, text ∈ other.rule → other = kind

/-- What is cut off in front of the rest of a text: the longest match or, where nothing matches, a
single stray character. -/
inductive Munch : Lexeme → List Char → Prop
  | rule {kind : LexemeKind} {text after : List Char} (h : IsLongest kind text after) :
      Munch ⟨kind, text⟩ after
  | stray {c : Char} {after : List Char}
      (h : ∀ (kind : LexemeKind) (cs : List Char), cs <+: c :: after → cs ∉ kind.rule) :
      Munch ⟨.stray, [c]⟩ after

namespace Munch

variable {l m : Lexeme} {after rest : List Char}

theorem text_ne_nil (h : Munch l after) : l.text ≠ [] := by
  cases h with
  | rule h =>
    rintro rfl
    exact nil_notMem_rule _ h.matched
  | stray h => exact List.cons_ne_nil _ _

theorem mem_rule (h : Munch l after) (hl : l.kind ≠ .stray) : l.text ∈ l.kind.rule := by
  cases h with
  | rule h => exact h.matched
  | stray h => exact absurd rfl hl

theorem unique (h : Munch l after) (hm : Munch m rest) (he : l.text ++ after = m.text ++ rest) :
    l = m ∧ after = rest := by
  cases h with
  | @rule kind text after h =>
    cases hm with
    | @rule kind' text' rest hm =>
      -- Both are longest matches at one place, so they are equally long.
      have hle := hm.longest kind text h.matched (he ▸ List.prefix_append text after)
      have hge := h.longest kind' text' hm.matched (he.symm ▸ List.prefix_append text' rest)
      obtain ⟨rfl, rfl⟩ := List.append_inj he (Nat.le_antisymm hle hge)
      obtain rfl := h.unique kind' hm.matched
      exact ⟨rfl, rfl⟩
    | @stray c rest hm =>
      have hp : text <+: c :: rest := ⟨after, he⟩
      exact absurd h.matched (hm kind text hp)
  | @stray c after h =>
    cases hm with
    | @rule kind text rest hm =>
      have hp : text <+: c :: after := ⟨rest, he.symm⟩
      exact absurd hm.matched (h kind text hp)
    | @stray d rest hm =>
      obtain ⟨rfl, rfl⟩ := List.cons.inj he
      exact ⟨rfl, rfl⟩

end Munch

theorem munch_longest (c : Char) (rest : List Char) :
    Munch ⟨(longest c rest).1, c :: rest.take (longest c rest).2⟩
      (rest.drop (longest c rest).2) := by
  rcases longest_eq_or_mem_rule c rest with hs | hm
  · rw [hs]
    refine .stray fun kind cs hp hm => ?_
    exact (le_longest_of_mem_rule hm hp).1 (congrArg Prod.fst hs)
  · refine .rule ⟨hm, fun other cs hcs hp => ?_, fun other ho => rule_unique hm ho⟩
    rw [List.cons_append, List.take_append_drop] at hp
    have hlen := (le_longest_of_mem_rule hcs hp).2
    rwa [List.length_cons, List.length_take_of_le (longest_le c rest)]

inductive Munched : List Char → List Lexeme → Prop
  | nil : Munched [] []
  | cons {l : Lexeme} {after : List Char} {ls : List Lexeme} (h : Munch l after)
      (rest : Munched after ls) : Munched (l.text ++ after) (l :: ls)

theorem munched_scan (cs : List Char) : Munched cs (scan cs) := by
  fun_induction scan cs with
  | case1 => exact .nil
  | case2 c rest n ih =>
    have hcs : c :: rest = (c :: rest.take n) ++ rest.drop n := by
      rw [List.cons_append, List.take_append_drop]
    rw [hcs]
    exact .cons (munch_longest c rest) ih

theorem Munched.eq_scan {cs : List Char} {ls : List Lexeme} (h : Munched cs ls) :
    ls = scan cs := by
  induction h with
  | nil => exact scan_nil.symm
  | @cons l after ls h _ ih =>
    cases ht : l.text with
    | nil => exact absurd ht h.text_ne_nil
    | cons c text =>
      have hm := munch_longest c (text ++ after)
      have hcs : l.text ++ after = (c :: (text ++ after).take (longest c (text ++ after)).2) ++
          (text ++ after).drop (longest c (text ++ after)).2 := by
        rw [ht, List.cons_append, List.cons_append, List.take_append_drop]
      obtain ⟨hl, hafter⟩ := h.unique hm hcs
      rw [List.cons_append, scan_cons, ← hl, ← hafter, ih]

theorem Munched.munch {cs : List Char} {pre post : List Lexeme} {l : Lexeme}
    (h : Munched cs (pre ++ l :: post)) : Munch l (post.flatMap Lexeme.text) := by
  induction pre generalizing cs with
  | nil =>
    cases h with
    | cons h rest =>
      rw [rest.eq_scan, flatMap_text_scan]
      exact h
  | cons m pre ih =>
    cases h with
    | cons _ rest => exact ih rest

/-! ## Places -/

def byteLength (cs : List Char) : Nat := (String.ofList cs).utf8ByteSize

theorem byteLength_append (cs ds : List Char) :
    byteLength (cs ++ ds) = byteLength cs + byteLength ds := by
  rw [byteLength, String.ofList_append, String.utf8ByteSize_append]
  rfl

theorem byteLength_pos {cs : List Char} (h : cs ≠ []) : 0 < byteLength cs := by
  refine Nat.pos_of_ne_zero fun hz => h ?_
  have hs := String.utf8ByteSize_eq_zero_iff.mp hz
  exact String.ofList_eq_empty_iff.mp hs

theorem byteLength_le_of_length_le {cs ds text : List Char} (hcs : cs <+: text) (hds : ds <+: text)
    (h : cs.length ≤ ds.length) : byteLength cs ≤ byteLength ds := by
  obtain ⟨more, rfl⟩ := List.prefix_of_prefix_length_le hcs hds h
  rw [byteLength_append]
  exact Nat.le_add_right _ _

section

variable {start : Nat} {ls : List Lexeme} {t : Token}

theorem place_append (start : Nat) (ls ms : List Lexeme) :
    place start (ls ++ ms) =
      place start ls ++ place (start + byteLength (ls.flatMap Lexeme.text)) ms := by
  induction ls generalizing start with
  | nil => rfl
  | cons l ls ih =>
    have hstop : start + byteLength ((l :: ls).flatMap Lexeme.text) =
        start + l.byteCount + byteLength (ls.flatMap Lexeme.text) := by
      rw [List.flatMap_cons, byteLength_append, ← Nat.add_assoc]
      rfl
    rw [List.cons_append, place, place, hstop, ih]
    split
    · rfl
    · rfl

theorem exists_of_mem_place (h : t ∈ place start ls) :
    ∃ pre post, ls = pre ++ t.lexeme :: post ∧ t.lexeme.isSkipped = false ∧
      t.start = start + byteLength (pre.flatMap Lexeme.text) ∧
      t.stop = t.start + byteLength t.lexeme.text := by
  induction ls generalizing start with
  | nil => cases h
  | cons l ls ih =>
    have hlater : t ∈ place (start + l.byteCount) ls →
        ∃ pre post, l :: ls = pre ++ t.lexeme :: post ∧ t.lexeme.isSkipped = false ∧
          t.start = start + byteLength (pre.flatMap Lexeme.text) ∧
          t.stop = t.start + byteLength t.lexeme.text := by
      intro hm
      obtain ⟨pre, post, rfl, hs, hstart, hstop⟩ := ih hm
      refine ⟨l :: pre, post, rfl, hs, ?_, hstop⟩
      rw [hstart, List.flatMap_cons, byteLength_append, ← Nat.add_assoc]
      rfl
    rw [place] at h
    split at h
    next => exact hlater h
    next hs =>
      rcases List.mem_cons.mp h with rfl | hm
      · exact ⟨[], ls, rfl, Bool.eq_false_iff.mpr hs, rfl, rfl⟩
      · exact hlater hm

theorem start_le_of_mem_place (h : t ∈ place start ls) : start ≤ t.start := by
  obtain ⟨pre, post, -, -, hstart, -⟩ := exists_of_mem_place h
  omega

theorem stop_le_of_mem_place (h : t ∈ place start ls) :
    t.stop ≤ start + byteLength (ls.flatMap Lexeme.text) := by
  obtain ⟨pre, post, rfl, -, hstart, hstop⟩ := exists_of_mem_place h
  rw [List.flatMap_append, List.flatMap_cons, byteLength_append, byteLength_append]
  omega

theorem mem_place (start : Nat) (pre post : List Lexeme) {l : Lexeme} (hl : l.isSkipped = false) :
    ⟨l, start + byteLength (pre.flatMap Lexeme.text),
      start + byteLength (pre.flatMap Lexeme.text) + byteLength l.text⟩ ∈
        place start (pre ++ l :: post) := by
  rw [place_append, place, hl]
  exact List.mem_append_right _ List.mem_cons_self

theorem outside_of_mem_place {pre post : List Lexeme} {l : Lexeme} (hl : l.isSkipped = true)
    (h : t ∈ place start (pre ++ l :: post)) :
    t.stop ≤ start + byteLength (pre.flatMap Lexeme.text) ∨
      start + byteLength (pre.flatMap Lexeme.text ++ l.text) ≤ t.start := by
  rw [place_append, place, hl, if_pos rfl] at h
  rcases List.mem_append.mp h with h | h
  · exact .inl (stop_le_of_mem_place h)
  · right
    rw [byteLength_append, ← Nat.add_assoc]
    exact start_le_of_mem_place h

theorem pairwise_place (start : Nat) (ls : List Lexeme) :
    (place start ls).Pairwise fun t u => t.stop ≤ u.start := by
  induction ls generalizing start with
  | nil => exact .nil
  | cons l ls ih =>
    rw [place]
    split
    next => exact ih _
    next => exact .cons (fun u hu => start_le_of_mem_place hu) (ih _)

end

theorem exists_lexeme_at {ls : List Lexeme} {k : Nat} (hk : k < (ls.flatMap Lexeme.text).length) :
    ∃ pre l post, ls = pre ++ l :: post ∧ (pre.flatMap Lexeme.text).length ≤ k ∧
      k < (pre.flatMap Lexeme.text ++ l.text).length := by
  induction ls generalizing k with
  | nil => cases hk
  | cons l ls ih =>
    by_cases hl : k < l.text.length
    · exact ⟨[], l, ls, rfl, Nat.zero_le k, hl⟩
    · rw [List.flatMap_cons, List.length_append] at hk
      obtain ⟨pre, m, post, rfl, hle, hlt⟩ := ih (k := k - l.text.length) (by omega)
      refine ⟨l :: pre, m, post, rfl, ?_, ?_⟩
      · rw [List.flatMap_cons, List.length_append]
        omega
      · rw [List.flatMap_cons, List.append_assoc, List.length_append]
        omega

/-! ## Tokens -/

theorem Munch.eq_newline {l : Lexeme} {after : List Char} (h : Munch l after)
    (hk : l.kind = .comment) : ∀ d ∈ after.head?, d = '\n' := by
  intro d hd
  cases h with
  | stray h => cases hk
  | @rule kind text after h =>
    obtain rfl : kind = .comment := hk
    obtain ⟨more, rfl⟩ := List.head?_eq_some_iff.mp hd
    cases text with
    | nil => exact absurd h.matched (nil_notMem_rule _)
    | cons c body =>
      obtain ⟨rfl, hb⟩ := cons_mem_comment.mp h.matched
      refine Classical.byContradiction fun hne => ?_
      -- With one character more the comment would still match.
      have hlonger : '#' :: (body ++ [d]) ∈ LexemeKind.comment.rule :=
        cons_mem_comment.mpr ⟨rfl, by simp [hb, Ne.symm hne]⟩
      have hle := h.longest .comment _ hlonger ⟨more, by simp⟩
      simp only [List.length_cons, List.length_append, List.length_nil] at hle
      omega

theorem Munch.blank_or_comment {l : Lexeme} {after : List Char} (h : Munch l after)
    (hs : l.isSkipped = true) :
    l.text ∈ LexemeKind.blank.rule ∨
      ∃ body, l.text = '#' :: body ∧ '\n' ∉ body ∧ ∀ d ∈ after.head?, d = '\n' := by
  have hr := h.mem_rule (fun hk => by simp [Lexeme.isSkipped, hk] at hs)
  simp only [Lexeme.isSkipped, Bool.or_eq_true, beq_iff_eq] at hs
  rcases hs with hk | hk
  · rw [hk] at hr
    exact .inl hr
  · rw [hk] at hr
    cases ht : l.text with
    | nil => exact absurd ht h.text_ne_nil
    | cons d body =>
      rw [ht] at hr
      obtain ⟨rfl, hb⟩ := cons_mem_comment.mp hr
      exact .inr ⟨body, rfl, hb, h.eq_newline hk⟩

section

variable {source : String} {before after : List Char} {c : Char} {t : Token}

theorem eq_of_scan {cs : List Char} {pre post : List Lexeme} {l : Lexeme}
    (h : scan cs = pre ++ l :: post) :
    cs = pre.flatMap Lexeme.text ++ l.text ++ post.flatMap Lexeme.text := by
  rw [← flatMap_text_scan cs, h, List.flatMap_append, List.flatMap_cons, List.append_assoc]

theorem munch_of_scan {cs : List Char} {pre post : List Lexeme} {l : Lexeme}
    (h : scan cs = pre ++ l :: post) : Munch l (post.flatMap Lexeme.text) := by
  have hm := munched_scan cs
  rw [h] at hm
  exact hm.munch

theorem exists_of_mem_tokens (h : t ∈ tokens source) :
    t.start < t.stop ∧ t.lexeme.isSkipped = false ∧
      ∃ before after, source.toList = before ++ t.lexeme.text ++ after ∧
        t.start = byteLength before ∧ t.stop = byteLength (before ++ t.lexeme.text) ∧
        Munch t.lexeme after := by
  obtain ⟨pre, post, hscan, hs, hstart, hstop⟩ := exists_of_mem_place h
  have hm := munch_of_scan hscan
  have hpos := byteLength_pos hm.text_ne_nil
  rw [Nat.zero_add] at hstart
  refine ⟨by omega, hs, _, _, eq_of_scan hscan, hstart, ?_, hm⟩
  rw [hstop, hstart, byteLength_append]

/-- A character that stands in no token is skipped, in a run of blanks or in a comment. -/
theorem token_or_skipped (h : source.toList = before ++ c :: after) :
    (∃ t ∈ tokens source, t.start ≤ byteLength before ∧ byteLength before < t.stop) ∨
      ∃ left run right, source.toList = left ++ run ++ right ∧ left.length ≤ before.length ∧
        before.length < (left ++ run).length ∧
        (∀ t ∈ tokens source, t.stop ≤ byteLength left ∨ byteLength (left ++ run) ≤ t.start) ∧
        (run ∈ LexemeKind.blank.rule ∨
          ∃ body, run = '#' :: body ∧ '\n' ∉ body ∧ ∀ d ∈ right.head?, d = '\n') := by
  have hk : before.length < ((scan source.toList).flatMap Lexeme.text).length := by
    rw [flatMap_text_scan, h, List.length_append, List.length_cons]
    omega
  obtain ⟨pre, l, post, hscan, hle, hlt⟩ := exists_lexeme_at hk
  have hm := munch_of_scan hscan
  have hsource := eq_of_scan hscan
  cases hs : l.isSkipped with
  | false =>
    have hmem := mem_place 0 pre post hs
    rw [← hscan, Nat.zero_add] at hmem
    have hbefore : before <+: source.toList := ⟨c :: after, h.symm⟩
    have hupto : before ++ [c] <+: source.toList := ⟨after, by rw [h]; simp⟩
    have hpre : pre.flatMap Lexeme.text <+: source.toList :=
      ⟨l.text ++ post.flatMap Lexeme.text, by rw [← List.append_assoc, ← hsource]⟩
    have hlexeme : pre.flatMap Lexeme.text ++ l.text <+: source.toList := ⟨_, hsource.symm⟩
    refine .inl ⟨_, hmem, byteLength_le_of_length_le hpre hbefore hle, ?_⟩
    have hbytes := byteLength_le_of_length_le hupto hlexeme (by rwa [List.length_append])
    have hpos : 0 < byteLength [c] := byteLength_pos (List.cons_ne_nil c [])
    rw [byteLength_append, byteLength_append] at hbytes
    show byteLength before < byteLength (pre.flatMap Lexeme.text) + byteLength l.text
    omega
  | true =>
    refine .inr ⟨_, l.text, _, hsource, hle, hlt, fun t ht => ?_, hm.blank_or_comment hs⟩
    rw [tokens, hscan] at ht
    have hout := outside_of_mem_place hs ht
    rwa [Nat.zero_add, Nat.zero_add] at hout

theorem newline_mem_tokens (h : source.toList = before ++ '\n' :: after) :
    ⟨⟨.newline, ['\n']⟩, byteLength before, byteLength before + 1⟩ ∈ tokens source := by
  have hscan := scan_append_newline before after
  have hmem := mem_place 0 (scan before) (scan after) (l := ⟨.newline, ['\n']⟩) rfl
  rw [← hscan, ← h, Nat.zero_add, flatMap_text_scan] at hmem
  exact hmem

end

/-- The tokens of a source are cut off by maximal munch. Its lexemes are the only ones by the rules.
The tokens among them are not empty and follow each other without an overlap, each of them the
longest match at its place or a single character where no rule matches. All other characters are
skipped as blanks or as comments up to the end of a line, and every line feed is a token. -/
theorem tokens_maximal_munch (source : String) :
    (∀ ls, Munched source.toList ls ↔ ls = scan source.toList) ∧
    (tokens source).Pairwise (fun t u => t.start < u.start ∧ t.stop ≤ u.start) ∧
    (∀ t ∈ tokens source, t.start < t.stop ∧ t.lexeme.isSkipped = false ∧
      ∃ before after, source.toList = before ++ t.lexeme.text ++ after ∧
        t.start = byteLength before ∧ t.stop = byteLength (before ++ t.lexeme.text) ∧
        Munch t.lexeme after) ∧
    (∀ before c after, source.toList = before ++ c :: after →
      (∃ t ∈ tokens source, t.start ≤ byteLength before ∧ byteLength before < t.stop) ∨
      ∃ left run right, source.toList = left ++ run ++ right ∧ left.length ≤ before.length ∧
        before.length < (left ++ run).length ∧
        (∀ t ∈ tokens source, t.stop ≤ byteLength left ∨ byteLength (left ++ run) ≤ t.start) ∧
        (run ∈ LexemeKind.blank.rule ∨
          ∃ body, run = '#' :: body ∧ '\n' ∉ body ∧ ∀ d ∈ right.head?, d = '\n')) ∧
    ∀ before after, source.toList = before ++ '\n' :: after →
      ⟨⟨.newline, ['\n']⟩, byteLength before, byteLength before + 1⟩ ∈ tokens source := by
  refine ⟨fun ls => ⟨Munched.eq_scan, ?_⟩, ?_, fun t ht => exists_of_mem_tokens ht,
    fun before c after h => token_or_skipped h, fun before after h => newline_mem_tokens h⟩
  · rintro rfl
    exact munched_scan _
  · refine List.Pairwise.imp_of_mem (fun {t u} ht _ hle => ?_) (pairwise_place 0 _)
    have hlt := (exists_of_mem_tokens ht).1
    exact ⟨by omega, hle⟩

end RecordMachine.Table
