import Mathlib.Data.List.Basic
import Statechart.Clock

/-!
# Timers of a clock

What scheduling, cancelling and becoming due do to the timers of a clock.
-/

namespace Statechart

namespace Clock

variable {α : Type} {c : Clock α} {t : Timer α}

/-- The timers that are pending and not cancelled. -/
def live (c : Clock α) : List (Timer α) :=
  c.pending.filter (fun t => !c.isCancelled t.number)

theorem mem_live :
  t ∈ c.live ↔ t ∈ c.pending ∧ c.isCancelled t.number = false
  := by
  rw [live, List.mem_filter, Bool.not_eq_true']

theorem isCancelled_cancel (c : Clock α) (i j : Nat) :
  (c.cancel i).isCancelled j = (j == i || c.isCancelled j)
  := by
  rw [cancel]
  split
  · next hcancelled =>
    by_cases hj : j = i
    · rw [hj, hcancelled, Bool.or_true]
    · rw [beq_eq_false_iff_ne.mpr hj, Bool.false_or]
  · exact List.contains_cons

theorem pending_cancel (c : Clock α) (i : Nat) :
  (c.cancel i).pending = c.pending
  := by
  rw [cancel]
  split <;> rfl

theorem now_cancel (c : Clock α) (i : Nat) :
  (c.cancel i).now = c.now ∧ (c.cancel i).scheduled = c.scheduled
  := by
  rw [cancel]
  split <;> exact ⟨rfl, rfl⟩

theorem mem_cancelled_cancel {i j : Nat} (h : j ∈ (c.cancel i).cancelled) :
  j = i ∨ j ∈ c.cancelled
  := by
  rw [cancel] at h
  split at h
  · exact Or.inr h
  · exact List.mem_cons.mp h

theorem mem_live_cancel {i : Nat} :
  t ∈ (c.cancel i).live ↔ t ∈ c.live ∧ t.number ≠ i
  := by
  rw [mem_live, mem_live, pending_cancel, isCancelled_cancel, Bool.or_eq_false_iff,
    beq_eq_false_iff_ne, and_comm (a := t.number ≠ i), and_assoc]

/-- A timer that becomes due is the first one. -/
theorem due?_eq_some {c' : Clock α} {target : Nat} (h : c.due? target = some (t, c')) :
  ∃ rest, c.pending = t :: rest ∧ t.deadline ≤ target ∧
    c' = { c with now := t.deadline, pending := rest }
  := by
  rw [due?] at h
  split at h
  · cases h
  · next u rest hpending =>
    split at h
    · next hdue =>
      cases h
      exact ⟨rest, hpending, hdue, rfl⟩
    · cases h

theorem insertTimer_perm (t : Timer α) (ts : List (Timer α)) :
  (insertTimer t ts).Perm (t :: ts)
  := by
  induction ts with
  | nil => exact .refl _
  | cons u ts ih =>
    rw [insertTimer]
    split
    · exact .refl _
    · exact (ih.cons u).trans (.swap t u ts)

theorem live_of_pending_cons {rest : List (Timer α)} (h : c.pending = t :: rest) (now : Nat) :
  c.live = (if c.isCancelled t.number then [] else [t]) ++
    live { c with now, pending := rest }
  := by
  rw [live, h, List.filter_cons]
  cases c.isCancelled t.number <;> rfl

end Clock

end Statechart
