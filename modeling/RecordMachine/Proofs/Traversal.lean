/-!
# Traversals that can fail

A traversal of a list succeeds if every step does, and fails with the error of
the first step that does not. Which elements come out is compared pointwise.
-/
namespace RecordMachine.Traversal

variable {α β ε : Type}

theorem bind_eq_ok_iff {x : Except ε α} {f : α → Except ε β} {b : β} :
    x >>= f = .ok b ↔ ∃ a, x = .ok a ∧ f a = .ok b := by
  cases x with
  | error e => simp [bind, Except.bind]
  | ok a => simp [bind, Except.bind]

theorem seq_eq_ok_iff {x : Except ε Unit} {f : Unit → Except ε β} {b : β} :
    x >>= f = .ok b ↔ x = .ok () ∧ f () = .ok b := by
  rw [bind_eq_ok_iff]
  exact ⟨fun ⟨_, h⟩ => h, fun h => ⟨(), h⟩⟩

theorem guard_eq_ok_iff {c : Prop} [Decidable c] {e : ε} {f : Unit → Except ε β}
    {x : Except ε β} {b : β} : (if c then throw e >>= f else x) = .ok b ↔ ¬c ∧ x = .ok b := by
  by_cases h : c
  · simp [h, throw, throwThe, MonadExceptOf.throw, bind, Except.bind]
  · simp [h]

theorem mapM_cons_ok {f : α → Except ε β} {x : α} {y : β} (h : f x = .ok y) (xs : List α) :
    (x :: xs).mapM f = (xs.mapM f).map (y :: ·) := by
  rw [List.mapM_cons, h]
  cases xs.mapM f <;> rfl

theorem mapM_cons_error {f : α → Except ε β} {x : α} {error : ε} (h : f x = .error error)
    (xs : List α) : (x :: xs).mapM f = .error error := by
  rw [List.mapM_cons, h]
  rfl

theorem map_eq_map_iff {γ δ : Type} {f : α → γ} {g : β → γ} {f' : α → δ} {g' : β → δ}
    (h : ∀ x y, f x = g y ↔ f' x = g' y) {xs : List α} {ys : List β} :
    xs.map f = ys.map g ↔ xs.map f' = ys.map g' := by
  induction xs generalizing ys with
  | nil => cases ys <;> simp
  | cons x xs ih =>
    cases ys with
    | nil => simp
    | cons y ys => simp only [List.map_cons, List.cons.injEq, h, ih]

theorem mapM_eq_ok_iff {f : α → Except ε β} {xs : List α} {ys : List β} :
    xs.mapM f = .ok ys ↔ xs.map f = ys.map .ok := by
  induction xs generalizing ys with
  | nil => cases ys <;> simp [pure, Except.pure]
  | cons x xs ih =>
    cases hx : f x with
    | error e => cases ys <;> simp [mapM_cons_error hx, hx]
    | ok y =>
      rw [mapM_cons_ok hx]
      cases ys with
      | nil => cases xs.mapM f <;> simp [Except.map]
      | cons z zs =>
        rw [List.map_cons, List.map_cons, List.cons.injEq, ← ih, hx, Except.ok.injEq]
        cases xs.mapM f <;> simp [Except.map]

theorem mapM_eq_error_iff {f : α → Except ε β} {xs : List α} {error : ε} :
    xs.mapM f = .error error ↔
      ∃ before x after, xs = before ++ x :: after ∧ (∀ w ∈ before, ∃ y, f w = .ok y) ∧
        f x = .error error := by
  constructor
  · intro h
    induction xs with
    | nil => cases h
    | cons x xs ih =>
      cases hx : f x with
      | error e =>
        rw [mapM_cons_error hx] at h
        cases h
        exact ⟨[], x, xs, rfl, fun w hw => absurd hw List.not_mem_nil, hx⟩
      | ok y =>
        rw [mapM_cons_ok hx] at h
        cases hxs : xs.mapM f with
        | ok ys =>
          rw [hxs] at h
          cases h
        | error e =>
          rw [hxs] at h
          cases h
          obtain ⟨before, z, after, rfl, hb, hz⟩ := ih hxs
          exact ⟨x :: before, z, after, rfl, List.forall_mem_cons.mpr ⟨⟨y, hx⟩, hb⟩, hz⟩
  · rintro ⟨before, x, after, rfl, hb, hx⟩
    induction before with
    | nil => exact mapM_cons_error hx after
    | cons w before ih =>
      obtain ⟨⟨y, hw⟩, hb⟩ := List.forall_mem_cons.mp hb
      rw [List.cons_append, mapM_cons_ok hw, ih hb]
      rfl

theorem mapM_eq_error_iff_getElem? {f : α → Except ε β} {xs : List α} {error : ε} :
    xs.mapM f = .error error ↔
      ∃ (k : Nat) (x : α), xs[k]? = some x ∧ f x = .error error ∧
        ∀ j < k, ∃ w, xs[j]? = some w ∧ ∃ y, f w = .ok y := by
  rw [mapM_eq_error_iff]
  constructor
  · intro h
    obtain ⟨before, x, after, rfl, hb, hx⟩ := h
    refine ⟨before.length, x, by simp, hx, fun j hj => ?_⟩
    exact ⟨before[j], by simp [List.getElem?_append_left, hj], hb _ (List.getElem_mem hj)⟩
  · intro h
    obtain ⟨k, x, hk, hx, hb⟩ := h
    obtain ⟨hlt, rfl⟩ := List.getElem?_eq_some_iff.mp hk
    refine ⟨xs.take k, xs[k], xs.drop (k + 1), ?_, fun w hw => ?_, hx⟩
    · rw [← List.drop_eq_getElem_cons hlt, List.take_append_drop]
    · obtain ⟨j, hj, rfl⟩ := List.mem_take_iff_getElem.mp hw
      obtain ⟨w, hw, hy⟩ := hb j (by omega)
      obtain ⟨_, rfl⟩ := List.getElem?_eq_some_iff.mp hw
      exact hy

end RecordMachine.Traversal
