import Mathlib.Data.List.Nodup
import Mathlib.Data.List.Perm.Basic
import Mathlib.Tactic.Common
import Statechart.Proofs.Clock.Timers
import Statechart.Proofs.Outcome

/-!
# Moving a clock forward

A clock that moves forward takes turns: in each the first pending timer that is due leaves the
queue and its task is run, unless the timer is cancelled, and the task may schedule further timers
and cancel others.  If the tasks schedule only for later moments, the turns come to an end.  When
they do, the tasks that were run are those of the timers that were due and not cancelled before
their turn, each once and in order (`advance_exact`).
-/

namespace Statechart.Clock

open Outcome (Ends)

/-- A turn: the timer that becomes due, the clock at its deadline without it, and the clock that
its task leaves. -/
structure Turn (α : Type) where
  timer : Timer α
  before : Clock α
  after : Clock α

/-- Whether the task of the timer is run in its turn. -/
def Turn.rings {α : Type} (x : Turn α) : Bool :=
  !x.before.isCancelled x.timer.number

/-- The timers that the task schedules. -/
def Turn.scheduled {α : Type} (x : Turn α) : List (Timer α) :=
  x.after.pending.filter (fun t => x.before.scheduled ≤ t.number)

section

variable {α σ : Type}

/-- What a task may do to a clock, bit by bit: it schedules a timer that is due after at least
`least`, or cancels a timer that has been scheduled. -/
inductive Handles (least : Nat) (c : Clock α) : Clock α → Prop where
  | refl : Handles least c c
  | schedule {d delay task} (h : Handles least c d) (hdelay : least ≤ delay) :
      Handles least c (d.schedule delay task)
  | cancel {d number} (h : Handles least c d) (hnumber : number < d.scheduled) :
      Handles least c (d.cancel number)

/-- Whether a clock can come about by scheduling, cancelling and moving forward: its timers are in
order, lie ahead and have numbers of their own, and only numbers that were given are cancelled. -/
structure WellFormed (c : Clock α) : Prop where
  ordered : c.pending.Pairwise Precedes
  ahead : ∀ t ∈ c.pending, c.now ≤ t.deadline
  numbered : ∀ t ∈ c.pending, t.number < c.scheduled
  distinct : (c.pending.map Timer.number).Nodup
  cancelled : ∀ n ∈ c.cancelled, n < c.scheduled

/-- The next turn on the way to `target`, with the state that it leaves. -/
def turn? (run : Runner α σ) (target : Nat) (c : Clock α) (s : σ) : Option (Turn α × σ) :=
  (c.due? target).map (fun (t, d) =>
    if d.isCancelled t.number then (⟨t, d, d⟩, s)
    else (⟨t, d, (run t.task d s).1⟩, (run t.task d s).2))

/-- The turns that a clock takes on the way to `target`. -/
inductive Turns (run : Runner α σ) (target : Nat) : Clock α → σ → List (Turn α) → Clock α → σ → Prop
    where
  | nil {c s} : Turns run target c s [] c s
  | cons {c s x s' turns d u} (hturn : c.turn? run target s = some (x, s'))
      (hrest : Turns run target x.after s' turns d u) : Turns run target c s (x :: turns) d u

/-- What holds of a clock `c` whose first timer `t` is due at `target`, and of the clock `d` at its
deadline. -/
structure Pops (target : Nat) (c : Clock α) (t : Timer α) (d : Clock α) : Prop where
  pending : c.pending = t :: d.pending
  ahead : c.now ≤ t.deadline
  due : t.deadline ≤ target
  numbered : t.number < c.scheduled
  now : d.now = t.deadline
  scheduled : d.scheduled = c.scheduled
  cancelled : d.cancelled = c.cancelled
  precedes : ∀ v ∈ d.pending, Precedes t v
  wellFormed : d.WellFormed

/-- The turns of tasks that only schedule and cancel, whatever else they do. -/
inductive Passes (least target : Nat) : Clock α → List (Turn α) → Clock α → Prop where
  | nil {c} : Passes least target c [] c
  | cons {c x turns d} (hpops : Pops target c x.timer x.before)
      (hhandles : Handles least x.before x.after) (hrest : Passes least target x.after turns d) :
      Passes least target c (x :: turns) d

end

variable {α σ : Type} {least delay target by_ : Nat} {run : Runner α σ} {c d : Clock α} {s u s' : σ}
  {t : Timer α} {x : Turn α} {turns : List (Turn α)}

/-! ### What tasks do -/

namespace Handles

theorem mono {more : Nat} (h : Handles more c d) (hle : least ≤ more) :
  Handles least c d
  := by
  induction h with
  | refl => exact .refl
  | schedule h hdelay ih => exact .schedule ih (Nat.le_trans hle hdelay)
  | cancel h hnumber ih => exact .cancel ih hnumber

theorem now_eq (h : Handles least c d) :
  d.now = c.now
  := by
  induction h with
  | refl => rfl
  | schedule h hdelay ih => exact ih
  | cancel h hnumber ih => rw [(now_cancel _ _).1, ih]

theorem scheduled_le (h : Handles least c d) :
  c.scheduled ≤ d.scheduled
  := by
  induction h with
  | refl => exact Nat.le_refl _
  | schedule h hdelay ih => exact Nat.le_succ_of_le ih
  | cancel h hnumber ih => rwa [(now_cancel _ _).2]

/-- What is cancelled stays cancelled. -/
theorem isCancelled (h : Handles least c d) {n : Nat} (hn : c.isCancelled n = true) :
  d.isCancelled n = true
  := by
  induction h with
  | refl => exact hn
  | schedule h hdelay ih => exact ih
  | cancel h hnumber ih => rw [isCancelled_cancel, ih, Bool.or_true]

/-- The timers that are added have new numbers and are due in time. -/
theorem exists_perm (h : Handles least c d) :
  ∃ added, d.pending.Perm (added ++ c.pending) ∧
    added.length + c.scheduled = d.scheduled ∧
    ∀ t ∈ added, c.scheduled ≤ t.number ∧ c.now + least ≤ t.deadline
  := by
  induction h with
  | refl => exact ⟨[], .refl _, Nat.zero_add _, List.forall_mem_nil _⟩
  | @schedule d delay task h hdelay ih =>
    obtain ⟨added, hperm, hlength, hadded⟩ := ih
    refine ⟨⟨d.now + delay, d.scheduled, task⟩ :: added, ?_, ?_,
      List.forall_mem_cons.mpr ⟨?_, hadded⟩⟩
    · exact (insertTimer_perm _ _).trans (hperm.cons _)
    · rw [List.length_cons, Nat.succ_add, hlength]
      rfl
    · exact ⟨h.scheduled_le, h.now_eq ▸ Nat.add_le_add_left hdelay _⟩
  | cancel h hnumber ih =>
    rw [pending_cancel, (now_cancel _ _).2]
    exact ih

/-- A timer that precedes all pending ones, and is due by now, precedes those that are added. -/
theorem precedes (h : Handles least c d) (hpending : ∀ v ∈ c.pending, Precedes t v)
    (hnumber : t.number < c.scheduled) (hnow : t.deadline ≤ c.now) :
  ∀ v ∈ d.pending, Precedes t v
  := by
  obtain ⟨added, hperm, -, hadded⟩ := h.exists_perm
  intro v hv
  rcases List.mem_append.mp (hperm.mem_iff.mp hv) with hv | hv
  · have hlater := hadded v hv
    simp only [Precedes]
    omega
  · exact hpending v hv

end Handles

namespace WellFormed

theorem empty :
  ({} : Clock α).WellFormed
  := ⟨.nil, List.forall_mem_nil _, List.forall_mem_nil _, .nil, List.forall_mem_nil _⟩

theorem schedule (h : c.WellFormed) (delay : Nat) (task : α) :
  (c.schedule delay task).WellFormed
  := by
  have hne : ∀ t ∈ c.pending, c.scheduled ≠ t.number :=
    fun t ht => (Nat.ne_of_lt (h.numbered t ht)).symm
  constructor
  case ordered => exact insertTimer_ordered h.ordered hne
  case ahead =>
    intro t ht
    rcases mem_insertTimer.mp ht with rfl | ht
    · exact Nat.le_add_right _ _
    · exact h.ahead t ht
  case numbered =>
    intro t ht
    rcases mem_insertTimer.mp ht with rfl | ht
    · exact Nat.lt_succ_self _
    · exact Nat.lt_succ_of_lt (h.numbered t ht)
  case distinct =>
    apply ((insertTimer_perm _ _).map Timer.number).nodup_iff.mpr
    rw [List.map_cons, List.nodup_cons, List.mem_map]
    refine ⟨?_, h.distinct⟩
    rintro ⟨t, ht, hnumber⟩
    exact hne t ht hnumber.symm
  case cancelled => exact fun n hn => Nat.lt_succ_of_lt (h.cancelled n hn)

theorem cancel (h : c.WellFormed) {number : Nat} (hnumber : number < c.scheduled) :
  (c.cancel number).WellFormed
  := by
  obtain ⟨hnow, hscheduled⟩ := now_cancel c number
  have hpending := pending_cancel c number
  constructor
  case ordered => exact hpending ▸ h.ordered
  case ahead => rw [hpending, hnow]; exact h.ahead
  case numbered => rw [hpending, hscheduled]; exact h.numbered
  case distinct => exact hpending ▸ h.distinct
  case cancelled =>
    rw [hscheduled]
    intro n hn
    rcases mem_cancelled_cancel hn with rfl | hn
    · exact hnumber
    · exact h.cancelled n hn

theorem handles (h : c.WellFormed) (hhandles : Handles least c d) :
  d.WellFormed
  := by
  induction hhandles with
  | refl => exact h
  | schedule _ _ ih => exact ih.schedule _ _
  | cancel _ hnumber ih => exact ih.cancel hnumber

end WellFormed

/-! ### Turns -/

theorem Precedes.deadline_le {v : Timer α} (h : Precedes t v) :
  t.deadline ≤ v.deadline
  := by
  rcases h with h | h
  · exact Nat.le_of_lt h
  · exact Nat.le_of_eq h.1

theorem WellFormed.pops (h : c.WellFormed) (hdue : c.due? target = some (t, d)) :
  Pops target c t d
  := by
  obtain ⟨rest, hpending, hle, rfl⟩ := due?_eq_some hdue
  obtain ⟨hordered, hahead, hnumbered, hdistinct, hcancelled⟩ := h
  rw [hpending] at hordered hahead hnumbered hdistinct
  rw [List.pairwise_cons] at hordered
  rw [List.map_cons, List.nodup_cons] at hdistinct
  rw [List.forall_mem_cons] at hahead hnumbered
  refine ⟨hpending, hahead.1, hle, hnumbered.1, rfl, rfl, rfl, hordered.1, hordered.2, ?_,
    hnumbered.2, hdistinct.2, hcancelled⟩
  exact fun v hv => (hordered.1 v hv).deadline_le

theorem Precedes.irrefl (t : Timer α) :
  ¬ Precedes t t
  := by
  simp [Precedes]

theorem turn?_eq_none_iff :
  c.turn? run target s = none ↔ c.due? target = none
  := by
  rw [turn?, Option.map_eq_none_iff]

theorem due?_of_turn? (h : c.turn? run target s = some (x, s')) :
  c.due? target = some (x.timer, x.before)
  := by
  rw [turn?, Option.map_eq_some_iff] at h
  obtain ⟨⟨t, d⟩, hdue, hx⟩ := h
  dsimp only at hx
  split at hx <;> cases hx <;> exact hdue

/-- Tasks that only schedule and cancel do nothing else in their turns. -/
theorem Turns.handles (h : Turns run target c s turns d u)
    (hrun : ∀ task c s, Handles least c (run task c s).1) :
  ∀ x ∈ turns, Handles least x.before x.after
  := by
  induction h with
  | nil => exact List.forall_mem_nil _
  | @cons c s x s' turns d u hturn hrest ih =>
    refine List.forall_mem_cons.mpr ⟨?_, ih⟩
    rw [turn?, Option.map_eq_some_iff] at hturn
    obtain ⟨⟨t, e⟩, -, hx⟩ := hturn
    dsimp only at hx
    split at hx
    · cases hx
      exact .refl
    · cases hx
      exact hrun t.task e s

theorem Turns.passes (h : Turns run target c s turns d u) (hc : c.WellFormed)
    (hhandles : ∀ x ∈ turns, Handles least x.before x.after) :
  Passes least target c turns d
  := by
  induction h with
  | nil => exact .nil
  | cons hturn hrest ih =>
    rw [List.forall_mem_cons] at hhandles
    have hpops := hc.pops (due?_of_turn? hturn)
    exact .cons hpops hhandles.1 (ih (hpops.wellFormed.handles hhandles.1) hhandles.2)

/-- The timers after a turn are those before it with those that the task schedules. -/
theorem Turn.perm (hbefore : x.before.WellFormed) (h : Handles least x.before x.after) :
  x.after.pending.Perm (x.scheduled ++ x.before.pending)
  := by
  obtain ⟨added, hperm, -, hadded⟩ := h.exists_perm
  refine hperm.trans (List.Perm.append_right _ ?_)
  have hnew : added.filter (fun t => x.before.scheduled ≤ t.number) = added :=
    List.filter_eq_self.mpr (fun t ht => decide_eq_true (hadded t ht).1)
  have hold : x.before.pending.filter (fun t => x.before.scheduled ≤ t.number) = [] := by
    refine List.filter_eq_nil_iff.mpr (fun t ht => ?_)
    rw [decide_eq_true_iff]
    exact Nat.not_le_of_lt (hbefore.numbered t ht)
  have hfilter := hperm.filter (fun t => x.before.scheduled ≤ t.number)
  rw [List.filter_append, hnew, hold, List.append_nil] at hfilter
  exact hfilter.symm

namespace Passes

variable (h : Passes least target c turns d)

include h

theorem wellFormed (hc : c.WellFormed) :
  d.WellFormed
  := by
  induction h with
  | nil => exact hc
  | cons hpops hhandles hrest ih => exact ih (hpops.wellFormed.handles hhandles)

theorem now_le :
  ∀ x ∈ turns, c.now ≤ x.timer.deadline ∧ x.timer.deadline ≤ target ∧
    x.before.now = x.timer.deadline ∧ x.after.now = x.timer.deadline
  := by
  induction h with
  | nil => exact List.forall_mem_nil _
  | cons hpops hhandles hrest ih =>
    have hnow := hhandles.now_eq.trans hpops.now
    refine List.forall_mem_cons.mpr ⟨⟨hpops.ahead, hpops.due, hpops.now, hnow⟩, fun y hy => ?_⟩
    obtain ⟨hahead, hrest⟩ := ih y hy
    exact ⟨Nat.le_trans hpops.ahead (hnow ▸ hahead), hrest⟩

/-- The timers that have had their turn and those that are left are those that were there and those
that were scheduled. -/
theorem perm :
  (turns.map Turn.timer ++ d.pending).Perm (c.pending ++ turns.flatMap Turn.scheduled)
  := by
  induction h with
  | nil => rw [List.map_nil, List.nil_append, List.flatMap_nil, List.append_nil]
  | cons hpops hhandles hrest ih =>
    rw [List.map_cons, List.cons_append, hpops.pending, List.cons_append, List.flatMap_cons,
      List.perm_cons, ← List.append_assoc]
    refine ih.trans (List.Perm.append_right _ ?_)
    exact (Turn.perm hpops.wellFormed hhandles).trans List.perm_append_comm

/-- One timer leaves in each turn. -/
theorem length_eq :
  turns.length + d.pending.length + c.scheduled = c.pending.length + d.scheduled
  := by
  induction h with
  | nil => rw [List.length_nil, Nat.zero_add]
  | cons hpops hhandles hrest ih =>
    obtain ⟨added, hperm, hadded, -⟩ := hhandles.exists_perm
    have hpending := hperm.length_eq
    rw [List.length_append] at hpending
    rw [hpops.scheduled] at hadded
    rw [hpops.pending, List.length_cons, List.length_cons]
    omega

/-- A timer that precedes all pending ones, and is due by now, precedes those that come later. -/
theorem precedes (hpending : ∀ v ∈ c.pending, Precedes t v) (hnumber : t.number < c.scheduled)
    (hnow : t.deadline ≤ c.now) :
  ∀ x ∈ turns, Precedes t x.timer
  := by
  induction h with
  | nil => exact List.forall_mem_nil _
  | cons hpops hhandles hrest ih =>
    rw [hpops.pending, List.forall_mem_cons] at hpending
    rw [← hpops.scheduled] at hnumber
    have hlater : t.deadline ≤ _ := Nat.le_trans hnow (hpops.now ▸ hpops.ahead)
    refine List.forall_mem_cons.mpr ⟨hpending.1, ih ?_ ?_ (hhandles.now_eq ▸ hlater)⟩
    · exact hhandles.precedes hpending.2 hnumber hlater
    · exact Nat.lt_of_lt_of_le hnumber hhandles.scheduled_le

/-- The turns are in the order of the timers. -/
theorem ordered :
  turns.Pairwise (fun x y => Precedes x.timer y.timer)
  := by
  induction h with
  | nil => exact List.Pairwise.nil
  | cons hpops hhandles hrest ih =>
    have hnumber := hpops.numbered
    rw [← hpops.scheduled] at hnumber
    have hnow := Nat.le_of_eq hpops.now.symm
    refine List.pairwise_cons.mpr ⟨hrest.precedes ?_ ?_ (hhandles.now_eq ▸ hnow), ih⟩
    · exact hhandles.precedes hpops.precedes hnumber hnow
    · exact Nat.lt_of_lt_of_le hnumber hhandles.scheduled_le

/-- A timer is cancelled when a turn comes if it was cancelled from the first or in an earlier
turn. -/
theorem isCancelled_iff (n : Nat) :
  ∀ x ∈ turns, x.before.isCancelled n = true ↔
    c.isCancelled n = true ∨ ∃ y ∈ turns, Precedes y.timer x.timer ∧ y.after.isCancelled n = true
  := by
  have hordered := h.ordered
  induction h with
  | nil => exact List.forall_mem_nil _
  | @cons c x turns d hpops hhandles hrest ih =>
    rw [List.pairwise_cons] at hordered
    have hfirst : x.before.isCancelled n = c.isCancelled n := by
      rw [isCancelled, isCancelled, hpops.cancelled]
    refine List.forall_mem_cons.mpr ⟨?_, fun z hz => ?_⟩
    · rw [hfirst, iff_self_or]
      rintro ⟨y, hy, hprecedes, -⟩
      rcases List.mem_cons.mp hy with rfl | hy
      · exact absurd hprecedes (Precedes.irrefl _)
      · exact absurd (hprecedes.trans (hordered.1 y hy)) (Precedes.irrefl _)
    · rw [ih hordered.2 z hz, List.exists_mem_cons_iff]
      constructor
      · rintro (hn | hn)
        · exact .inr (.inl ⟨hordered.1 z hz, hn⟩)
        · exact .inr (.inr hn)
      · rintro (hn | ⟨-, hn⟩ | hn)
        · exact .inl (hhandles.isCancelled (hfirst.trans hn))
        · exact .inl hn
        · exact .inr hn

end Passes

/-! ### The end of the way -/

/-- Nothing that is pending is due when the first timer is not. -/
theorem WellFormed.later (h : c.WellFormed) (hdue : c.due? target = none) :
  ∀ t ∈ c.pending, target < t.deadline
  := by
  have hordered := h.ordered
  rw [due?] at hdue
  split at hdue
  · next hpending => simp [hpending]
  · next t rest hpending =>
    split at hdue
    · cases hdue
    · next hlate =>
      rw [hpending, List.pairwise_cons] at hordered
      rw [hpending]
      have hlate := Nat.lt_of_not_le hlate
      exact List.forall_mem_cons.mpr
        ⟨hlate, fun v hv => Nat.lt_of_lt_of_le hlate (hordered.1 v hv).deadline_le⟩

theorem WellFormed.arrive (h : c.WellFormed) (hdue : c.due? target = none) :
  (c.arrive target).WellFormed
  := ⟨h.ordered, fun t ht => Nat.le_of_lt (h.later hdue t ht), h.numbered, h.distinct, h.cancelled⟩

theorem advanceTo_succ (run : Runner α σ) (target fuel : Nat) (c : Clock α) (s : σ) :
  advanceTo run target (fuel + 1) c s =
    (c.turn? run target s).elim (c.arrive target, s)
      (fun next => advanceTo run target fuel next.1.after next.2)
  := by
  rw [advanceTo, turn?]
  cases c.due? target with
  | none => rfl
  | some next =>
    obtain ⟨t, d⟩ := next
    rw [Option.map_some, Option.elim_some]
    dsimp only
    split <;> rfl

/-- With fuel for the turns that are left, a clock takes them all. -/
theorem Turns.advanceTo_eq (h : Turns run target c s turns d u) (hdue : d.due? target = none)
    {fuel : Nat} (hfuel : turns.length ≤ fuel) :
  advanceTo run target fuel c s = (d.arrive target, u)
  := by
  induction h generalizing fuel with
  | @nil c s =>
    cases fuel with
    | zero => rfl
    | succ fuel =>
      rw [advanceTo_succ, turn?_eq_none_iff.mpr hdue]
      rfl
  | cons hturn hrest ih =>
    cases fuel with
    | zero => cases hfuel
    | succ fuel =>
      rw [advanceTo_succ, hturn]
      exact ih hdue (Nat.le_of_succ_le_succ hfuel)

/-- Any fuel leads as far as its turns, if not to the end. -/
theorem exists_turns (run : Runner α σ) (target fuel : Nat) (c : Clock α) (s : σ) :
  ∃ turns d u, Turns run target c s turns d u ∧
    advanceTo run target fuel c s = (d.arrive target, u) ∧
    (d.due? target = none ∨ turns.length = fuel)
  := by
  induction fuel generalizing c s with
  | zero => exact ⟨[], c, s, .nil, rfl, .inr rfl⟩
  | succ fuel ih =>
    rw [advanceTo_succ]
    cases hturn : c.turn? run target s with
    | none => exact ⟨[], c, s, .nil, rfl, .inl (turn?_eq_none_iff.mp hturn)⟩
    | some next =>
      obtain ⟨turns, d, u, hturns, heq, hend⟩ := ih next.1.after next.2
      refine ⟨next.1 :: turns, d, u, .cons hturn hturns, heq, hend.imp_right ?_⟩
      exact congrArg Nat.succ

/-- A clock comes to an end exactly if its turns do. -/
theorem ends_iff (hc : c.WellFormed) (hhandles : ∀ turns d u,
    Turns run (c.now + by_) c s turns d u → ∀ x ∈ turns, Handles least x.before x.after) :
  Ends (fun fuel => c.advance run fuel by_ s) (d, u) ↔
    ∃ turns e, Turns run (c.now + by_) c s turns e u ∧ e.due? (c.now + by_) = none ∧
      d = e.arrive (c.now + by_)
  := by
  constructor
  · rintro ⟨enough, henough⟩
    -- each turn takes a timer away, so that many turns would have scheduled more timers than `d`
    have hfuel := henough (enough + c.pending.length + d.scheduled + 1) (by omega)
    obtain ⟨turns, e, v, hturns, heq, hend⟩ :=
      exists_turns run (c.now + by_) (enough + c.pending.length + d.scheduled + 1) c s
    dsimp only at hfuel
    rw [advance, heq, Prod.mk.injEq] at hfuel
    obtain ⟨rfl, rfl⟩ := hfuel
    refine ⟨turns, e, hturns, hend.resolve_right (fun hlength => ?_), rfl⟩
    have hcount := (hturns.passes hc (hhandles turns e v hturns)).length_eq
    rw [hlength] at hcount
    change _ = c.pending.length + (e.arrive (c.now + by_)).scheduled at hcount
    omega
  · rintro ⟨turns, e, hturns, hend, rfl⟩
    exact ⟨turns.length, fun fuel hfuel => hturns.advanceTo_eq hend hfuel⟩

/-- The timers that are due at once. -/
def imminent (c : Clock α) : List (Timer α) :=
  c.pending.filter (fun t => t.deadline ≤ c.now)

/-- If the task schedules only for later moments, a turn brings the clock forward or leaves fewer
timers that are due at once. -/
theorem Pops.decreases (h : Pops target c x.timer x.before)
    (hhandles : Handles 1 x.before x.after) :
  target - x.after.now < target - c.now ∨
    target - x.after.now = target - c.now ∧ x.after.imminent.length < c.imminent.length
  := by
  have hnow := hhandles.now_eq.trans h.now
  have hahead := h.ahead
  have hdue := h.due
  rcases Nat.lt_or_eq_of_le hahead with hlt | heq
  · left
    omega
  · right
    obtain ⟨added, hperm, -, hadded⟩ := hhandles.exists_perm
    have hlater : added.filter (fun t => t.deadline ≤ x.after.now) = [] := by
      refine List.filter_eq_nil_iff.mpr (fun t ht => ?_)
      have := (hadded t ht).2
      rw [decide_eq_true_iff, hhandles.now_eq]
      omega
    have hlength := (hperm.filter (fun t => t.deadline ≤ x.after.now)).length_eq
    rw [List.filter_append, hlater, List.nil_append, hnow, ← heq] at hlength
    refine ⟨by rw [hnow, ← heq], ?_⟩
    rw [imminent, imminent, hnow, ← heq, hlength, h.pending, List.filter_cons_of_pos,
      List.length_cons]
    · exact Nat.lt_succ_self _
    · exact decide_eq_true (Nat.le_of_eq heq.symm)

/-- If the tasks schedule only for later moments, the turns come to an end. -/
theorem exists_last (run : Runner α σ) (target : Nat) (c : Clock α) (s : σ) (hc : c.WellFormed)
    (hhandles : ∀ turns d u, Turns run target c s turns d u →
      ∀ x ∈ turns, Handles 1 x.before x.after) :
  ∃ turns d u, Turns run target c s turns d u ∧ d.due? target = none
  := by
  match hturn : c.turn? run target s with
  | none => exact ⟨[], c, s, .nil, turn?_eq_none_iff.mp hturn⟩
  | some (x, s') =>
    have hpops := hc.pops (due?_of_turn? hturn)
    have hfirst := hhandles [x] x.after s' (.cons hturn .nil) x List.mem_cons_self
    have hdecreases := hpops.decreases hfirst
    obtain ⟨turns, d, u, hturns, hdue⟩ := exists_last run target x.after s'
      (hpops.wellFormed.handles hfirst)
      (fun turns d u h y hy =>
        hhandles (x :: turns) d u (.cons hturn h) y (List.mem_cons_of_mem x hy))
    exact ⟨x :: turns, d, u, .cons hturn hturns, hdue⟩
termination_by (target - c.now, c.imminent.length)
decreasing_by exact Prod.lex_def.mpr hdecreases

/-! ### What is run on the way -/

/-- What a clock does that moves forward by `by_`, from `c` to `d`, in turns. -/
structure Advances (run : Runner α σ) (by_ : Nat) (c : Clock α) (s : σ) (turns : List (Turn α))
    (d : Clock α) (u : σ) : Prop where
  taken : ∃ e, Turns run (c.now + by_) c s turns e u ∧ d = e.arrive (c.now + by_)
  rung_iff : ∀ t, t ∈ (turns.filter Turn.rings).map Turn.timer ↔
    t.deadline ≤ c.now + by_ ∧ (t ∈ c.pending ∨ ∃ x ∈ turns, t ∈ x.scheduled) ∧
      c.isCancelled t.number = false ∧
      ∀ x ∈ turns, Precedes x.timer t → x.after.isCancelled t.number = false
  ordered : ((turns.filter Turn.rings).map Turn.timer).Pairwise Precedes
  now_eq_deadline : ∀ x ∈ turns, x.before.now = x.timer.deadline ∧ x.after.now = x.timer.deadline
  now_eq : d.now = c.now + by_
  now_le : (c.now :: turns.map (fun x => x.before.now) ++ [d.now]).Pairwise (· ≤ ·)
  pending_iff : ∀ t, t ∈ d.pending ↔
    c.now + by_ < t.deadline ∧ (t ∈ c.pending ∨ ∃ x ∈ turns, t ∈ x.scheduled)
  wellFormed : d.WellFormed

theorem Turns.advances {e : Clock α} (h : Turns run (c.now + by_) c s turns e u)
    (hdue : e.due? (c.now + by_) = none) (hc : c.WellFormed)
    (hhandles : ∀ x ∈ turns, Handles least x.before x.after) :
  Advances run by_ c s turns (e.arrive (c.now + by_)) u
  := by
  have hpasses := h.passes hc hhandles
  have he := hpasses.wellFormed hc
  have hordered := hpasses.ordered
  have hnow := hpasses.now_le
  have hmem : ∀ t, (t ∈ turns.map Turn.timer ∨ t ∈ e.pending) ↔
      t ∈ c.pending ∨ ∃ x ∈ turns, t ∈ x.scheduled := by
    intro t
    rw [← List.mem_append, ← List.mem_flatMap, ← List.mem_append]
    exact hpasses.perm.mem_iff
  have hcancelled := fun n x hx => (hpasses.isCancelled_iff n x hx).not
  constructor
  case taken => exact ⟨e, h, rfl⟩
  case rung_iff =>
    intro t
    constructor
    · intro ht
      obtain ⟨x, hx, rfl⟩ := List.mem_map.mp ht
      obtain ⟨hx, hrings⟩ := List.mem_filter.mp hx
      rw [Turn.rings, Bool.not_eq_true', ← Bool.not_eq_true, hcancelled _ x hx, not_or] at hrings
      refine ⟨(hnow x hx).2.1, (hmem x.timer).mp (.inl (List.mem_map_of_mem hx)), ?_, ?_⟩
      · exact Bool.eq_false_iff.mpr hrings.1
      · exact fun y hy hprecedes =>
          Bool.eq_false_iff.mpr (fun hcancel => hrings.2 ⟨y, hy, hprecedes, hcancel⟩)
    · rintro ⟨hle, ht, hfirst, hearlier⟩
      rcases (hmem t).mpr ht with ht | ht
      · obtain ⟨x, hx, rfl⟩ := List.mem_map.mp ht
        refine List.mem_map_of_mem (List.mem_filter.mpr ⟨hx, ?_⟩)
        rw [Turn.rings, Bool.not_eq_true', ← Bool.not_eq_true, hcancelled _ x hx, not_or, hfirst]
        refine ⟨Bool.false_ne_true, ?_⟩
        rintro ⟨y, hy, hprecedes, hcancel⟩
        rw [hearlier y hy hprecedes] at hcancel
        cases hcancel
      · exact absurd hle (Nat.not_le_of_lt (he.later hdue t ht))
  case ordered => exact List.pairwise_map.mpr (hordered.filter _)
  case now_eq_deadline => exact fun x hx => (hnow x hx).2.2
  case now_eq => rfl
  case now_le =>
    rw [List.cons_append, List.pairwise_cons, List.pairwise_append, List.pairwise_map]
    refine ⟨?_, ?_, List.pairwise_singleton _ _, ?_⟩
    · intro n hn
      rcases List.mem_append.mp hn with hn | hn
      · obtain ⟨x, hx, rfl⟩ := List.mem_map.mp hn
        rw [(hnow x hx).2.2.1]
        exact (hnow x hx).1
      · rw [List.mem_singleton.mp hn]
        exact Nat.le_add_right _ _
    · refine hordered.imp_of_mem (fun hx hy hprecedes => ?_)
      rw [(hnow _ hx).2.2.1, (hnow _ hy).2.2.1]
      exact hprecedes.deadline_le
    · intro n hn k hk
      obtain ⟨x, hx, rfl⟩ := List.mem_map.mp hn
      rw [List.mem_singleton.mp hk, (hnow x hx).2.2.1]
      exact (hnow x hx).2.1
  case pending_iff =>
    intro t
    constructor
    · exact fun ht => ⟨he.later hdue t ht, (hmem t).mp (.inr ht)⟩
    · rintro ⟨hlt, ht⟩
      refine ((hmem t).mpr ht).resolve_left (fun ht => ?_)
      obtain ⟨x, hx, rfl⟩ := List.mem_map.mp ht
      exact absurd (hnow x hx).2.1 (Nat.not_le_of_lt hlt)
  case wellFormed => exact he.arrive hdue

/-- Let the tasks that a clock runs on its way forward by `by_` only schedule timers and cancel
some.  If all timers that they schedule are due later than they are run, then the clock comes to an
end.  If it does, the tasks that it has run are those of the timers, pending at the beginning or
scheduled since, that are due by then and have not been cancelled before their turn: each once, in
the order of deadlines and of scheduling, and with the time at the deadline.  In the end the time
is `by_` later, the timers that are left are due after that, and the time has never gone back. -/
theorem advance_exact (hc : c.WellFormed)
    (hhandles : ∀ turns d u, Turns run (c.now + by_) c s turns d u →
      ∀ x ∈ turns, Handles 0 x.before x.after) :
  ((∀ turns d u, Turns run (c.now + by_) c s turns d u →
      ∀ x ∈ turns, Handles 1 x.before x.after) →
    ∃ d u, Ends (fun fuel => c.advance run fuel by_ s) (d, u)) ∧
  ∀ d u, Ends (fun fuel => c.advance run fuel by_ s) (d, u) →
    ∃ turns, Advances run by_ c s turns d u
  := by
  constructor
  · intro hlater
    obtain ⟨turns, e, u, hturns, hdue⟩ := exists_last run (c.now + by_) c s hc hlater
    exact ⟨_, u, (ends_iff hc hhandles).mpr ⟨turns, e, hturns, hdue, rfl⟩⟩
  · intro d u hends
    obtain ⟨turns, e, hturns, hdue, rfl⟩ := (ends_iff hc hhandles).mp hends
    exact ⟨turns, hturns.advances hdue hc (hhandles turns e u hturns)⟩

/-- Tasks that note the time; the first of them has another one run 10 later and cancels the first
timer. -/
def chiming : Runner Nat (List (Nat × Nat)) := fun task c log =>
  match task with
  | 0 => ((c.schedule 10 2).cancel 0, log ++ [(task, c.now)])
  | _ => (c, log ++ [(task, c.now)])

/-- A clock with two timers, the second of which is due first. -/
def wound : Clock Nat :=
  (({} : Clock Nat).schedule 20 1).schedule 10 0

theorem advance_exact_chiming :
  wound.WellFormed ∧
  (∀ turns d u, Turns chiming (wound.now + 25) wound [] turns d u →
    ∀ x ∈ turns, Handles 1 x.before x.after) ∧
  ∃ d turns, Ends (fun fuel => wound.advance chiming fuel 25 []) (d, [(0, 10), (2, 20)]) ∧
    d.now = 25 ∧
    Advances chiming 25 wound [] turns d [(0, 10), (2, 20)]
  := by
  have hwound : wound.WellFormed := (WellFormed.empty.schedule 20 1).schedule 10 0
  have hchiming : ∀ task c s, Handles 1 c (chiming task c s).1 := by
    intro task c s
    match task with
    | 0 => exact .cancel (.schedule .refl (by decide)) (Nat.succ_pos _)
    | _ + 1 => exact .refl
  have hhandles : ∀ turns d u, Turns chiming (wound.now + 25) wound [] turns d u →
      ∀ x ∈ turns, Handles 1 x.before x.after := fun _ _ _ h => h.handles hchiming
  have hmodest : ∀ turns d u, Turns chiming (wound.now + 25) wound [] turns d u →
      ∀ x ∈ turns, Handles 0 x.before x.after :=
    fun turns d u h x hx => (hhandles turns d u h x hx).mono (Nat.zero_le 1)
  obtain ⟨hends, hexact⟩ := advance_exact hwound hmodest
  obtain ⟨d, u, enough, henough⟩ := hends hhandles
  have hresult := henough (enough + 4) (Nat.le_add_right _ _)
  obtain rfl : [(0, 10), (2, 20)] = u := congrArg Prod.snd hresult
  obtain ⟨turns, hturns⟩ := hexact d _ ⟨enough, henough⟩
  exact ⟨hwound, hhandles, d, turns, ⟨enough, henough⟩, hturns.now_eq, hturns⟩

end Statechart.Clock
