import Mathlib.Data.List.DropRight
import Mathlib.Data.List.Induction
/-!
# Parts of a list

A list is cut at the elements that separate its parts. What a part holds, and what stands in front
of it and behind it, is told without the cutting.
-/
namespace RecordMachine.Parts

variable {α : Type} (p : α → Bool)

theorem exists_last_part (xs : List α) :
    ∃ before part, xs = before ++ part ∧ (∀ x ∈ before.getLast?, p x = true) ∧
      ∀ x ∈ part, p x = false := by
  induction xs using List.reverseRecOn with
  | nil => exact ⟨[], [], by simp⟩
  | append_singleton xs x ih =>
    cases hx : p x with
    | true => exact ⟨xs ++ [x], [], by simp [hx]⟩
    | false =>
      obtain ⟨before, part, rfl, hb, hpart⟩ := ih
      refine ⟨before, part ++ [x], by simp, hb, ?_⟩
      intro y hy
      rcases List.mem_append.mp hy with hy | hy
      · exact hpart y hy
      · rw [List.mem_singleton.mp hy, hx]

theorem exists_first_part (xs : List α) :
    ∃ part after, xs = part ++ after ∧ (∀ x ∈ part, p x = false) ∧
      ∀ x ∈ after.head?, p x = true := by
  induction xs with
  | nil => exact ⟨[], [], by simp⟩
  | cons x xs ih =>
    cases hx : p x with
    | true => exact ⟨[], x :: xs, by simp [hx]⟩
    | false =>
      obtain ⟨part, after, rfl, hpart, ha⟩ := ih
      exact ⟨x :: part, after, by simp, by simpa [hx] using hpart, ha⟩

theorem exists_dropped_ends (xs : List α) :
    ∃ front back, xs = front ++ (xs.dropWhile p).rdropWhile p ++ back ∧
      (∀ x ∈ front, p x = true) ∧ ∀ x ∈ back, p x = true := by
  refine ⟨xs.takeWhile p, (xs.dropWhile p).rtakeWhile p, ?_,
    fun x hx => List.mem_takeWhile_imp hx, fun x hx => List.mem_rtakeWhile_imp hx⟩
  rw [List.append_assoc, List.rdropWhile_append_rtakeWhile, List.takeWhile_append_dropWhile]

variable {p}

theorem dropWhile_append_of_head {front xs : List α} (hf : ∀ x ∈ front, p x = true)
    (hx : ∀ x ∈ xs.head?, p x = false) : (front ++ xs).dropWhile p = xs := by
  rw [List.dropWhile_append_of_pos hf]
  cases xs with
  | nil => rfl
  | cons x xs => simp [hx x rfl]

theorem rdropWhile_append_of_last {xs back : List α} (hb : ∀ x ∈ back, p x = true)
    (hx : ∀ x ∈ xs.getLast?, p x = false) : (xs ++ back).rdropWhile p = xs := by
  rw [List.rdropWhile, List.reverse_append, dropWhile_append_of_head, List.reverse_reverse]
  · exact fun x h => hb x (List.mem_reverse.mp h)
  · rwa [List.head?_reverse]

theorem exists_splitOnP {before after : List α} (hb : ∀ x ∈ before.getLast?, p x = true)
    (ha : ∀ x ∈ after.head?, p x = true) :
    ∃ left right, ∀ part, (∀ x ∈ part, p x = false) →
      (before ++ part ++ after).splitOnP p = left ++ part :: right := by
  have hright : ∃ right, ∀ part, (∀ x ∈ part, p x = false) →
      (part ++ after).splitOnP p = part :: right := by
    cases after with
    | nil => exact ⟨[], fun part hpart => by rw [List.append_nil, List.splitOnP_eq_singleton hpart]⟩
    | cons d more =>
      refine ⟨more.splitOnP p, fun part hpart => ?_⟩
      exact List.splitOnP_append_cons_of_forall_mem hpart d (ha d rfl) more
  obtain ⟨right, hright⟩ := hright
  rcases List.eq_nil_or_concat before with rfl | ⟨front, d, rfl⟩
  · exact ⟨[], right, hright⟩
  · have hd : p d = true := by
      apply hb
      simp
    refine ⟨front.splitOnP p, right, fun part hpart => ?_⟩
    have hassoc : front.concat d ++ part ++ after = front ++ d :: (part ++ after) := by simp
    rw [hassoc, List.splitOnP_append_cons front _ hd, hright part hpart]

theorem forall_mem_splitOnP {q : α → Prop} {xs : List α} :
    (∀ part ∈ xs.splitOnP p, ∀ x ∈ part, q x) ↔ ∀ x ∈ xs, p x = true ∨ q x := by
  induction xs with
  | nil => simp
  | cons x xs ih =>
    obtain ⟨part, parts, hs⟩ := List.exists_cons_of_ne_nil (List.splitOnP_ne_nil p xs)
    rw [hs, List.forall_mem_cons] at ih
    rw [List.splitOnP_cons_eq_if_modifyHead, hs, List.forall_mem_cons, ← ih]
    cases hx : p x with
    | true => simp
    | false => simp [and_assoc]

theorem notMem_of_mem_splitOn [BEq α] [LawfulBEq α] {x separator : α} {xs part : List α}
    (h : x = separator ∨ x ∉ xs) (hp : part ∈ xs.splitOn separator) : x ∉ part := by
  have hall : ∀ part ∈ xs.splitOn separator, ∀ y ∈ part, y ≠ x := by
    refine forall_mem_splitOnP.mpr fun y hy => ?_
    rcases h with rfl | h
    · simpa using eq_or_ne y x
    · exact Or.inr fun he => h (he ▸ hy)
  exact fun hm => hall part hp x hm rfl

end RecordMachine.Parts
