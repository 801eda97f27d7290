import Mathlib.Data.List.Forall2

/-!
# Computations that succeed

A computation that may fail succeeds with a result if all of its parts succeed with
theirs. If one of them fails, the first that does gives the error, whatever comes
behind it.
-/

namespace Lindenmayer

variable {α β ε : Type}

theorem bind_eq_ok_iff {x : Except ε α} {f : α → Except ε β} {b : β} :
    x >>= f = .ok b ↔ ∃ a, x = .ok a ∧ f a = .ok b := by
  cases x with
  | error e => simp [bind, Except.bind]
  | ok a => simp [bind, Except.bind]

theorem bind_eq_error_iff {x : Except ε α} {f : α → Except ε β} {e : ε} :
    x >>= f = .error e ↔ x = .error e ∨ ∃ a, x = .ok a ∧ f a = .error e := by
  cases x with
  | error e' => simp [bind, Except.bind]
  | ok a => simp [bind, Except.bind]

theorem isOk_map (f : α → β) (x : Except ε α) : (x.map f).isOk = x.isOk := by
  cases x <;> rfl

theorem forall₂_of_mapM {f : α → Except ε β} {xs : List α} {ys : List β}
    (h : xs.mapM f = .ok ys) : List.Forall₂ (fun x y => f x = .ok y) xs ys := by
  induction xs generalizing ys with
  | nil =>
      rw [List.mapM_nil] at h
      cases h
      exact List.Forall₂.nil
  | cons x xs ih =>
      simp only [List.mapM_cons, bind_eq_ok_iff] at h
      obtain ⟨y, hy, ys', hys, h⟩ := h
      cases h
      exact List.Forall₂.cons hy (ih hys)

theorem exists_mapM_eq_ok {f : α → Except ε β} {xs : List α} (h : ∀ x ∈ xs, ∃ y, f x = .ok y) :
    ∃ ys, xs.mapM f = .ok ys := by
  induction xs with
  | nil => exact ⟨[], List.mapM_nil⟩
  | cons x xs ih =>
      obtain ⟨y, hy⟩ := h x List.mem_cons_self
      obtain ⟨ys, hys⟩ := ih fun x hx => h x (List.mem_cons_of_mem _ hx)
      refine ⟨y :: ys, ?_⟩
      rw [List.mapM_cons, hy, hys]
      rfl

theorem mapM_eq_error {f : α → Except ε β} {before : List α} {x : α} {e : ε}
    (hbefore : ∀ y ∈ before, ∃ z, f y = .ok z) (hx : f x = .error e) (after : List α) :
    (before ++ x :: after).mapM f = .error e := by
  induction before with
  | nil =>
      rw [List.nil_append, List.mapM_cons, hx]
      rfl
  | cons y before ih =>
      obtain ⟨z, hz⟩ := hbefore y List.mem_cons_self
      rw [List.cons_append, List.mapM_cons, hz,
        ih fun y hy => hbefore y (List.mem_cons_of_mem _ hy)]
      rfl

/-- A run fails in its first step that does. -/
theorem foldlM_eq_error_iff {f : β → α → Except ε β} {xs : List α} {s : β} {e : ε} :
    xs.foldlM f s = .error e ↔
      ∃ before x after s', xs = before ++ x :: after ∧ before.foldlM f s = .ok s' ∧
        f s' x = .error e := by
  refine ⟨fun h => ?_, fun h => ?_⟩
  · induction xs generalizing s with
    | nil => cases h
    | cons x xs ih =>
        rw [List.foldlM_cons] at h
        cases hx : f s x with
        | error e' =>
            rw [hx] at h
            cases h
            exact ⟨[], x, xs, s, rfl, rfl, hx⟩
        | ok s₁ =>
            rw [hx] at h
            obtain ⟨before, y, after, s', rfl, hbefore, hy⟩ := ih h
            refine ⟨x :: before, y, after, s', rfl, ?_, hy⟩
            rw [List.foldlM_cons, hx]
            exact hbefore
  · obtain ⟨before, x, after, s', rfl, hbefore, hx⟩ := h
    rw [List.foldlM_append, hbefore]
    show List.foldlM f s' (x :: after) = _
    rw [List.foldlM_cons, hx]
    rfl

end Lindenmayer
