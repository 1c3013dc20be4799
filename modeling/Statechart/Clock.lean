/-!
# Clocks

A clock that moves only when it is told to.  Time is counted in microseconds.  A timer has
a deadline and a number that tells the order of scheduling; `Clock.advance` runs the timers
that become due in the order of deadlines, and of numbers where deadlines are equal.
-/

namespace Statechart

/-- A scheduled task. -/
structure Timer (α : Type) where
  deadline : Nat
  number : Nat
  task : α
  deriving Repr

/-- A clock with tasks of type `α`; the pending timers are in the order in which they
become due. -/
structure Clock (α : Type) where
  now : Nat := 0
  scheduled : Nat := 0
  pending : List (Timer α) := []
  cancelled : List Nat := []

namespace Clock

variable {α σ : Type}

/-- Whether a timer is due before another. -/
def Precedes (t u : Timer α) : Prop :=
  t.deadline < u.deadline ∨ (t.deadline = u.deadline ∧ t.number < u.number)

instance (t u : Timer α) : Decidable (Precedes t u) := by
  unfold Precedes
  infer_instance

/-- The timers with one more at its place. -/
def insertTimer (t : Timer α) : List (Timer α) → List (Timer α)
  | [] => [t]
  | u :: rest => if Precedes t u then t :: u :: rest else u :: insertTimer t rest

/-- The clock with one more timer, which is due after `delay`. -/
def schedule (c : Clock α) (delay : Nat) (task : α) : Clock α :=
  { c with
    scheduled := c.scheduled + 1
    pending := insertTimer ⟨c.now + delay, c.scheduled, task⟩ c.pending }

/-- The number of the timer that the next call of `schedule` makes. -/
def nextNumber (c : Clock α) : Nat :=
  c.scheduled

/-- Whether a timer is cancelled. -/
def isCancelled (c : Clock α) (number : Nat) : Bool :=
  c.cancelled.contains number

/-- The clock with a timer cancelled; its task never runs, unless it has run already. -/
def cancel (c : Clock α) (number : Nat) : Clock α :=
  if c.isCancelled number then c else { c with cancelled := number :: c.cancelled }

/-- The number of timers that are pending and not cancelled. -/
def armed (c : Clock α) : Nat :=
  (c.pending.filter (fun t => !c.isCancelled t.number)).length

/-- The first timer that is due at `target`, and the clock at its deadline without it. -/
def due? (c : Clock α) (target : Nat) : Option (Timer α × Clock α) :=
  match c.pending with
  | [] => none
  | t :: rest =>
    if t.deadline ≤ target then some (t, { c with now := t.deadline, pending := rest })
    else none

/-- The clock at `target`. -/
def arrive (c : Clock α) (target : Nat) : Clock α :=
  { c with now := target }

/-- What runs a task: it sees the clock and changes it together with a state. -/
abbrev Runner (α σ : Type) := α → Clock α → σ → Clock α × σ

/-- The clock and the state after time has moved to `target`.  The fuel bounds the number of
timers that become due. -/
def advanceTo (run : Runner α σ) (target : Nat) :
    Nat → Clock α → σ → Clock α × σ
  | 0, c, s => (c.arrive target, s)
  | fuel + 1, c, s =>
    match c.due? target with
    | none => (c.arrive target, s)
    | some (t, c) =>
      if c.isCancelled t.number then advanceTo run target fuel c s
      else
        let (c, s) := run t.task c s
        advanceTo run target fuel c s

/-- The clock and the state after time has moved forward by `by_`. -/
def advance (run : Runner α σ) (fuel by_ : Nat) (c : Clock α) (s : σ) : Clock α × σ :=
  advanceTo run (c.now + by_) fuel c s

theorem mem_insertTimer {t u : Timer α} {ts : List (Timer α)} :
  u ∈ insertTimer t ts ↔ u = t ∨ u ∈ ts
  := by
  induction ts with
  | nil => simp [insertTimer]
  | cons v rest ih =>
    simp only [insertTimer]
    split
    · simp
    · simp only [List.mem_cons, ih]
      exact or_left_comm

theorem Precedes.trans {t u v : Timer α} (h : Precedes t u) (h' : Precedes u v) :
  Precedes t v
  := by
  simp only [Precedes] at *
  omega

/-- Of two timers with different numbers one precedes the other. -/
theorem precedes_of_not_precedes {t u : Timer α} (h : ¬ Precedes t u)
    (hn : t.number ≠ u.number) :
  Precedes u t
  := by
  simp only [Precedes] at *
  omega

/-- Insertion keeps timers in the order in which they become due. -/
theorem insertTimer_ordered {t : Timer α} {ts : List (Timer α)} (h : ts.Pairwise Precedes)
    (hn : ∀ u ∈ ts, t.number ≠ u.number) :
  (insertTimer t ts).Pairwise Precedes
  := by
  induction ts with
  | nil => simp [insertTimer]
  | cons u rest ih =>
    have hu := List.pairwise_cons.1 h
    simp only [insertTimer]
    split
    · next htu =>
      refine List.pairwise_cons.2 ⟨?_, h⟩
      intro v hv
      rcases List.mem_cons.1 hv with rfl | hv
      · exact htu
      · exact htu.trans (hu.1 v hv)
    · next htu =>
      have hut := precedes_of_not_precedes htu (hn u List.mem_cons_self)
      refine List.pairwise_cons.2
        ⟨?_, ih hu.2 (fun v hv => hn v (List.mem_cons_of_mem u hv))⟩
      intro v hv
      rcases mem_insertTimer.1 hv with rfl | hv
      · exact hut
      · exact hu.1 v hv

end Clock

end Statechart
