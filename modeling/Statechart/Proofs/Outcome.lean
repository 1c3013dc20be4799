import Mathlib.Tactic.Common

/-!
# Computations that succeed

When a sequence of computations that may fail succeeds, each of them does.  A computation that is
given fuel comes to an end if more fuel changes nothing any more (`Ends`).
-/

namespace Statechart.Outcome

variable {ε α β : Type}

/-- Whether a computation that is given fuel comes to an end with a result: any fuel leads to this
result that is enough. -/
def Ends (f : Nat → β) (b : β) : Prop :=
  ∃ enough, ∀ fuel, enough ≤ fuel → f fuel = b

/-- A sequence of two computations succeeds exactly if both do. -/
theorem bind_eq_ok {x : Except ε α} {f : α → Except ε β} {b : β} :
  x >>= f = .ok b ↔ ∃ a, x = .ok a ∧ f a = .ok b
  := by
  cases x with
  | error e => simp [bind, Except.bind]
  | ok a => simp [bind, Except.bind]

theorem map_eq_ok {x : Except ε α} {f : α → β} {b : β} :
  x.map f = .ok b ↔ ∃ a, x = .ok a ∧ f a = b
  := by
  cases x with
  | error e => simp [Except.map]
  | ok a => simp [Except.map]

/-- A property of the result that a computation finds holds of a result. -/
theorem exists_of_any {x : Except ε α} {p : α → Bool} (h : x.toOption.any p = true) :
  ∃ a, x = .ok a ∧ p a = true
  := by
  cases x with
  | error e => cases h
  | ok a => exact ⟨a, rfl, h⟩

/-- When a computation succeeds on all items of a list, its values stand at the places of
the items. -/
theorem forall₂_of_mapM_eq_ok {f : α → Except ε β} {xs : List α} {ys : List β}
    (h : xs.mapM f = .ok ys) :
  List.Forall₂ (fun x y => f x = .ok y) xs ys
  := by
  induction xs generalizing ys with
  | nil =>
    rw [List.mapM_nil] at h
    cases h
    apply List.Forall₂.nil
  | cons x xs ih =>
    rw [List.mapM_cons] at h
    obtain ⟨y, hy, h⟩ := bind_eq_ok.mp h
    obtain ⟨zs, hzs, h⟩ := bind_eq_ok.mp h
    cases h
    exact List.Forall₂.cons hy (ih hzs)

/-- Every value that a computation gives on the items of a list comes from one of them. -/
theorem exists_of_mem_mapM {f : α → Except ε β} {xs : List α} {ys : List β} {y : β}
    (h : xs.mapM f = .ok ys) (hy : y ∈ ys) :
  ∃ x ∈ xs, f x = .ok y
  := by
  have h' := forall₂_of_mapM_eq_ok h
  clear h
  induction h' with
  | nil => simp at hy
  | cons hxy hrest ih =>
    rcases List.mem_cons.mp hy with rfl | hy
    · exact ⟨_, List.mem_cons_self, hxy⟩
    · obtain ⟨x, hx, hfx⟩ := ih hy
      exact ⟨x, List.mem_cons_of_mem _ hx, hfx⟩

/-- What stands at a place of the second of two matching lists matches what stands there
in the first. -/
theorem exists_of_forall₂ {R : α → β → Prop} {xs : List α} {ys : List β}
    (h : List.Forall₂ R xs ys) {i : Nat} {y : β} (hy : ys[i]? = some y) :
  ∃ x, xs[i]? = some x ∧ R x y
  := by
  induction h generalizing i with
  | nil => simp at hy
  | cons hxy hrest ih =>
    cases i with
    | zero =>
      rw [List.getElem?_cons_zero, Option.some.injEq] at hy
      subst hy
      exact ⟨_, rfl, hxy⟩
    | succ i =>
      rw [List.getElem?_cons_succ] at hy
      apply ih hy

/-- What each step of a fallible fold preserves holds of its result. -/
theorem foldlM_preserves {σ : Type} {P : σ → Prop} {f : σ → α → Except ε σ} {l : List α}
    {s s' : σ} (hf : ∀ s a t, P s → f s a = .ok t → P t) (hs : P s)
    (h : l.foldlM f s = .ok s') :
  P s'
  := by
  induction l generalizing s with
  | nil =>
    cases h
    exact hs
  | cons a l ih =>
    rw [List.foldlM_cons] at h
    obtain ⟨t, ht, h⟩ := bind_eq_ok.mp h
    apply ih (hf s a t hs ht) h

/-- Each item of a fallible fold makes a step of it, from which the fold goes on to its
result. -/
theorem exists_of_mem_foldlM {σ : Type} {f : σ → α → Except ε σ} {l : List α} {s s' : σ} {a : α}
    (h : l.foldlM f s = .ok s') (ha : a ∈ l) :
  ∃ (t t' : σ) (rest : List α), f t a = .ok t' ∧ rest.foldlM f t' = .ok s'
  := by
  induction l generalizing s with
  | nil => cases ha
  | cons b l ih =>
    rw [List.foldlM_cons] at h
    obtain ⟨t, ht, hrest⟩ := bind_eq_ok.mp h
    rcases List.mem_cons.mp ha with rfl | ha
    · exact ⟨s, t, l, ht, hrest⟩
    · apply ih hrest ha

end Statechart.Outcome
