import Statechart.Proofs.Machine.Run
import Statechart.Proofs.Resolution.History

/-!
# Paths

The microsteps of a run follow each other: each starts with the active nodes and the
histories with which the one before it ends (`Run.exists_path`).  A history node keeps along a
path what it has recorded, until its parent is exited again (`Path.lookup`).
-/

namespace Statechart

namespace Progress

/-- The microsteps that lead from active nodes and histories to others, each from where the
one before it ends. -/
inductive Path (chart : Chart) (imps : Implementations) :
    NodeSet → History → List Step → NodeSet → History → Prop where
  | nil {configuration history} : Path chart imps configuration history [] configuration history
  | cons {x xs configuration history}
      (h : Path chart imps (x.after chart imps).configuration (x.after chart imps).history xs
        configuration history) :
      Path chart imps x.before.configuration x.before.history (x :: xs) configuration history

variable {chart : Chart} {imps : Implementations} {event : Event} {p p' : Progress}
  {xs ys : List Step} {c c' c'' : NodeSet} {η η' η'' : History}

theorem Path.append (h : Path chart imps c η xs c' η') (h' : Path chart imps c' η' ys c'' η'') :
  Path chart imps c η (xs ++ ys) c'' η''
  := by
  induction h with
  | nil => exact h'
  | cons h ih => exact .cons (ih h')

theorem Path.split (h : Path chart imps c η (xs ++ ys) c'' η'') :
  ∃ c' η', Path chart imps c η xs c' η' ∧ Path chart imps c' η' ys c'' η''
  := by
  induction xs generalizing c η with
  | nil => exact ⟨c, η, .nil, h⟩
  | cons x xs ih =>
    cases h with
    | cons h =>
      obtain ⟨c', η', hxs, hys⟩ := ih h
      exact ⟨c', η', .cons hxs, hys⟩

/-- As long as a node is not exited, its history children keep what they have recorded. -/
theorem Path.lookup (wf : chart.WellFormed) (h : Path chart imps c η xs c' η') {n q : Nat}
    (hq : chart.parent? n = some q)
    (hstays : ∀ x ∈ xs, q ∉ x.before.exiting chart x.transitions) :
  η'.lookup n = η.lookup n
  := by
  induction h with
  | nil => rfl
  | @cons x xs _ _ h ih =>
    rw [List.forall_mem_cons] at hstays
    rw [ih hstays.2, Step.after, history_microstep,
      lookup_recorded_of_not_mem wf hq hstays.1]

/-- Along a path through legal configurations histories remember these. -/
theorem Path.remembers (wf : chart.WellFormed) (h : Path chart imps c η xs c' η')
    (hη : chart.Remembers η) (hlegal : ∀ x ∈ xs, chart.Legal x.before.configuration) :
  chart.Remembers η'
  := by
  induction h with
  | nil => exact hη
  | @cons x xs _ _ h ih =>
    rw [List.forall_mem_cons] at hlegal
    apply ih _ hlegal.2
    rw [Step.after, history_microstep]
    apply hη.recorded wf hlegal.1

theorem Settles.path (h : Settles chart imps event p xs p') :
  Path chart imps p.configuration p.history xs p'.configuration p'.history
  := by
  induction h with
  | done h => exact .nil
  | idle h hnone => exact .nil
  | step h hnext hrest ih => exact .cons ih

end Progress

namespace Machine

open Progress

variable {m : Machine} {s s' : Snapshot} {event : Event} {xs : List Step}

/-- The active nodes and the histories that a machine begins with. -/
inductive Begins (m : Machine) : NodeSet → History → Prop where
  | entry : Begins m m.entry.configuration m.entry.history
  | restored {persisted s} (h : m.restore persisted = .ok s) :
      Begins m s.configuration s.history

theorem Moves.path (h : m.Moves s event xs s') :
  Path m.chart m.implementations s.configuration s.history xs s'.configuration s'.history
  := by
  cases h with
  | rest => exact .nil
  | react hsettles => exact .cons hsettles.path

/-- The microsteps of a run lead from the beginning of the machine to the snapshot. -/
theorem Run.exists_path (h : m.Run xs s) :
  ∃ c η, m.Begins c η ∧
    Path m.chart m.implementations c η xs s.configuration s.history
  := by
  induction h with
  | initial hsettles => exact ⟨_, _, .entry, hsettles.path⟩
  | restored h => exact ⟨_, _, .restored h, .nil⟩
  | step h hmoves ih =>
    obtain ⟨c, η, hbegins, hpath⟩ := ih
    exact ⟨c, η, hbegins, hpath.append hmoves.path⟩

end Machine

end Statechart
