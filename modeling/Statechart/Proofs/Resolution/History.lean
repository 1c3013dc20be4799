import Statechart.Proofs.Resolution.Landing
import Statechart.Proofs.Resolution.Microstep

/-!
# Histories

What a history node stands for lies below its parent and may be active together
(`apart_landings`, `isBelow_of_mem_landings`), provided that what is recorded was recorded
in legal configurations (`Remembers`) and that declared defaults are siblings of the history
node (`SiblingDefaults`).  Microsteps from legal configurations record such histories
(`Remembers.recorded`).
-/

namespace Statechart

/-- The declared defaults of a history node. -/
def Kind.defaults : Kind → List Nat
  | .history _ defaults => defaults
  | _ => []

namespace Chart

open Progress (recording recorded)

/-- Whether the declared defaults of history nodes are states beside them. -/
def SiblingDefaults (chart : Chart) : Prop :=
  ∀ h, ∀ x ∈ (chart.kind h).defaults,
    (chart.kind x).isHistory = false ∧ chart.parent? x = chart.parent? h

instance (chart : Chart) : Decidable chart.SiblingDefaults :=
  decidable_of_iff
    (∀ h ∈ List.range chart.nodes.length, ∀ x ∈ (chart.kind h).defaults,
      (chart.kind x).isHistory = false ∧ chart.parent? x = chart.parent? h) (by
      constructor
      · intro hall h x hx
        apply hall h (List.mem_range.mpr _) x hx
        apply lt_length_of_isHistory
        cases hk : chart.kind h with
        | history depth defaults => rfl
        | _ =>
          rw [hk] at hx
          cases hx
      · intro hall h _ x hx
        apply hall h x hx)

/-- Whether all that is recorded was recorded in legal configurations. -/
def Remembers (chart : Chart) (history : History) : Prop :=
  ∀ h nodes, history.lookup h = some nodes →
    ∃ configuration depth defaults p, chart.Legal configuration ∧
      chart.kind h = .history depth defaults ∧ chart.parent? h = some p ∧ p ∈ configuration ∧
      nodes = recording chart configuration p depth

/-- Whether `a` is the only aim of a transition, which moves inside `d`. -/
structure Aims (chart : Chart) (history : History) (t : Transition) (a d : Nat) : Prop where
  aims : t.aims = [a]
  apart : chart.Apart (chart.landings history a)
  scope : chart.scope history t = some d

variable {chart : Chart} {history : History} {configuration : NodeSet} {t : Transition}
  {ts : List Transition} {n h p x a d : Nat} {nodes : List Nat}

theorem remembers_nil (chart : Chart) :
  chart.Remembers []
  := by
  intro h nodes hlookup
  cases hlookup

/-- What exited nodes record in a legal configuration is remembered. -/
theorem Remembers.recorded (wf : chart.WellFormed) (hremembers : chart.Remembers history)
    (legal : chart.Legal configuration) (ts : List Transition) :
  chart.Remembers (recorded chart configuration history ts)
  := by
  intro h nodes hlookup
  rcases Progress.lookup_recorded_cases wf hlookup with
    hold | ⟨depth, defaults, p, hk, hp, hmem, heq⟩
  · apply hremembers h nodes hold
  · exact ⟨configuration, depth, defaults, p, legal, hk, hp, (mem_exited.mp hmem).1, heq⟩

theorem mem_recording_deep :
  x ∈ recording chart configuration p .deep ↔
    x ∈ configuration ∧ (chart.kind x).isAtomic = true ∧ chart.isBelow x p = true
  := by
  simp [recording]

theorem mem_recording_shallow :
  x ∈ recording chart configuration p .shallow ↔
    x ∈ configuration ∧ chart.parent? x = some p
  := by
  simp [recording]

theorem landings_of_lookup {history' : History} {depth : HistoryDepth} {defaults : List Nat}
    (hk : chart.kind h = .history depth defaults)
    (hlookup : history'.lookup h = history.lookup h) :
  chart.landings history' h = chart.landings history h
  := by
  rw [landings, landings, hk]
  dsimp only
  rw [restored, restored, hlookup]

theorem landings_of_lookup_eq_some {depth : HistoryDepth} {defaults : List Nat}
    (hk : chart.kind h = .history depth defaults)
    (hlookup : history.lookup h = some nodes) :
  chart.landings history h = nodes
  := by
  rw [landings, hk]
  dsimp only
  rw [restored, hlookup]

namespace WellFormed

variable (wf : chart.WellFormed)

include wf

/-- What is recorded for a history node was active below its parent. -/
theorem mem_recording {depth : HistoryDepth}
    (hx : x ∈ recording chart configuration p depth) :
  x ∈ configuration ∧ chart.isBelow x p = true
  := by
  cases depth with
  | deep => exact ⟨(mem_recording_deep.mp hx).1, (mem_recording_deep.mp hx).2.2⟩
  | shallow =>
    obtain ⟨hx, hp⟩ := mem_recording_shallow.mp hx
    exact ⟨hx, wf.isBelow_of_parent hp⟩

/-! ### What may be active together -/

/-- Active nodes of a legal configuration, none below another, are apart. -/
theorem apart_of_legal (legal : chart.Legal configuration) (hnodup : nodes.Nodup)
    (hmem : ∀ x ∈ nodes, x ∈ configuration)
    (hbelow : ∀ x ∈ nodes, ∀ y ∈ nodes, ¬ chart.isBelow x y = true) :
  chart.Apart nodes
  := by
  constructor
  case nodup => exact hnodup
  case lt_length => exact fun x hx => legal.lt_length (hmem x hx)
  case not_history => exact fun x hx => legal.not_history (hmem x hx)
  case not_below => exact hbelow
  case agree =>
    intro k c c' x y hk hc hc' hx hy hxc hyc
    have hcs := legal.mem_of_within wf (hmem x hx) hxc
    have hcs' := legal.mem_of_within wf (hmem y hy) hyc
    apply legal.child_unique (legal.parent_mem hcs hc) hk hcs hc hcs' hc'

/-- Children of a node are apart, if a compound node has only one of them. -/
theorem apart_of_children (hnodup : nodes.Nodup)
    (hparent : ∀ x ∈ nodes, chart.parent? x = some p)
    (hplain : ∀ x ∈ nodes, (chart.kind x).isHistory = false)
    (hunique : (chart.kind p).isCompound = true → ∀ x ∈ nodes, ∀ y ∈ nodes, x = y) :
  chart.Apart nodes
  := by
  constructor
  case nodup => exact hnodup
  case lt_length => exact fun x hx => lt_of_parent (hparent x hx)
  case not_history => exact hplain
  case not_below =>
    intro x hx y hy hxy
    apply wf.not_within_of_parent (hparent y hy) (wf.within_parent (hparent x hx) hxy)
  case agree =>
    intro k c c' x y hk hc hc' hx hy hxc hyc
    have hxp : chart.Within x p := Or.inr (wf.isBelow_of_parent (hparent x hx))
    have hyp : chart.Within y p := Or.inr (wf.isBelow_of_parent (hparent y hy))
    have hxk := wf.within_isBelow hxc (wf.isBelow_of_parent hc)
    rcases wf.within_parent (hparent x hx) hxk with rfl | hpk
    · rw [← wf.child_unique (hparent x hx) hc (within_refl chart x) hxc,
        ← wf.child_unique (hparent y hy) hc' (within_refl chart y) hyc]
      apply hunique hk x hx y hy
    · apply wf.child_unique hc hc' (wf.within_child_of_within hxp hpk hc hxc)
        (wf.within_child_of_within hyp hpk hc' hyc)

/-! ### What a history node stands for -/

/-- What is recorded for a history node lies below its parent and is apart. -/
theorem apart_recording (legal : chart.Legal configuration) (p : Nat) (depth : HistoryDepth) :
  chart.Apart (recording chart configuration p depth) ∧
    ∀ x ∈ recording chart configuration p depth, chart.isBelow x p = true
  := by
  have hnodup : configuration.Nodup := legal.increasing.imp (fun h => Nat.ne_of_lt h)
  cases depth with
  | deep =>
    constructor
    · apply wf.apart_of_legal legal (hnodup.filter _)
      · exact fun x hx => (mem_recording_deep.mp hx).1
      · intro x _ y hy
        apply wf.not_isBelow_of_isAtomic (mem_recording_deep.mp hy).2.1 x
    · exact fun x hx => (mem_recording_deep.mp hx).2.2
  | shallow =>
    have hparent : ∀ x ∈ recording chart configuration p .shallow, chart.parent? x = some p :=
      fun x hx => (mem_recording_shallow.mp hx).2
    constructor
    · apply wf.apart_of_legal legal (hnodup.filter _)
      · exact fun x hx => (mem_recording_shallow.mp hx).1
      · intro x hx y hy hxy
        apply wf.not_within_of_parent (hparent y hy) (wf.within_parent (hparent x hx) hxy)
    · exact fun x hx => wf.isBelow_of_parent (hparent x hx)

/-- What a history node stands for when nothing is recorded are children of its parent, and
one child if the parent is compound. -/
theorem historyDefault_children (hsiblings : chart.SiblingDefaults) {depth : HistoryDepth}
    {defaults : List Nat} (hk : chart.kind h = .history depth defaults)
    (hp : chart.parent? h = some p) :
  (chart.historyDefault h defaults).Nodup ∧
  (∀ x ∈ chart.historyDefault h defaults, chart.parent? x = some p ∧
    (chart.kind x).isHistory = false) ∧
  ((chart.kind p).isCompound = true → ∀ x ∈ chart.historyDefault h defaults,
    ∀ y ∈ chart.historyDefault h defaults, x = y)
  := by
  rw [historyDefault]
  split
  · next hne =>
    have hlength := wf.defaults_length hk
    match defaults, hlength with
    | [], _ => cases hne
    | [x], _ =>
      obtain ⟨hplain, hparent⟩ := hsiblings h x (by rw [hk]; exact List.mem_singleton_self x)
      rw [hp] at hparent
      simp [hplain, hparent]
    | x :: y :: rest, hlength => simp at hlength
  · rw [hp]
    dsimp only
    split
    · next i hkind =>
      obtain ⟨hi, hplain⟩ := wf.initial hkind
      have hi := wf.parent_of_mem_children hi
      simp [hplain, hi]
    · next hkind =>
      and_intros
      · apply nodup_regions wf p
      · intro x hx
        exact ⟨parent_of_mem_regions wf hx, (mem_regions.mp hx).2⟩
      · intro hcompound
        cases hkp : chart.kind p with
        | compound i => exact absurd hkp (hkind i)
        | _ =>
          rw [hkp] at hcompound
          cases hcompound

/-- What a history node stands for is recorded, or are children of its parent. -/
theorem landings_cases (hremembers : chart.Remembers history) (hsiblings : chart.SiblingDefaults)
    {depth : HistoryDepth} {defaults : List Nat} (hk : chart.kind h = .history depth defaults)
    (hp : chart.parent? h = some p) :
  (∃ configuration, chart.Legal configuration ∧ p ∈ configuration ∧
    history.lookup h = some (recording chart configuration p depth) ∧
    chart.landings history h = recording chart configuration p depth) ∨
  (history.lookup h = none ∧ (chart.landings history h).Nodup ∧
    (∀ x ∈ chart.landings history h, chart.parent? x = some p ∧
      (chart.kind x).isHistory = false) ∧
    ((chart.kind p).isCompound = true → ∀ x ∈ chart.landings history h,
      ∀ y ∈ chart.landings history h, x = y))
  := by
  rw [landings, hk]
  dsimp only
  rw [restored]
  cases hlookup : history.lookup h with
  | none =>
    right
    exact ⟨rfl, wf.historyDefault_children hsiblings hk hp⟩
  | some nodes =>
    left
    obtain ⟨configuration, depth', defaults', p', legal, hk', hp', hmem, rfl⟩ :=
      hremembers h nodes hlookup
    rw [hk] at hk'
    cases hk'
    rw [hp, Option.some.injEq] at hp'
    subst hp'
    exact ⟨configuration, legal, hmem, rfl, rfl⟩

/-- What an aim stands for is apart. -/
theorem apart_landings (hremembers : chart.Remembers history)
    (hsiblings : chart.SiblingDefaults) (hn : n < chart.nodes.length) :
  chart.Apart (chart.landings history n)
  := by
  by_cases hk : (chart.kind n).isHistory = true
  · obtain ⟨p, hp⟩ := wf.exists_parent_of_isHistory hk
    cases hkind : chart.kind n with
    | history depth defaults =>
      rcases wf.landings_cases hremembers hsiblings hkind hp with
        ⟨configuration, legal, -, -, heq⟩ | ⟨-, hnodup, hchildren, hunique⟩
      · rw [heq]
        exact (wf.apart_recording legal p depth).1
      · apply wf.apart_of_children hnodup (fun x hx => (hchildren x hx).1)
          (fun x hx => (hchildren x hx).2) hunique
    | _ =>
      rw [hkind] at hk
      cases hk
  · rw [(landings_of_plain (Bool.not_eq_true _ ▸ hk)).1]
    apply apart_singleton wf hn (Bool.not_eq_true _ ▸ hk)

/-- What a history node stands for lies below its parent. -/
theorem isBelow_of_mem_landings (hremembers : chart.Remembers history)
    (hsiblings : chart.SiblingDefaults) (hk : (chart.kind h).isHistory = true)
    (hp : chart.parent? h = some p) (hx : x ∈ chart.landings history h) :
  chart.isBelow x p = true
  := by
  cases hkind : chart.kind h with
  | history depth defaults =>
    rcases wf.landings_cases hremembers hsiblings hkind hp with
      ⟨configuration, legal, -, -, heq⟩ | ⟨-, -, hchildren, -⟩
    · rw [heq] at hx
      exact (wf.apart_recording legal p depth).2 x hx
    · apply wf.isBelow_of_parent (hchildren x hx).1
  | _ =>
    rw [hkind] at hk
    cases hk

/-! ### Aims -/

theorem exists_aims (hremembers : chart.Remembers history) (hsiblings : chart.SiblingDefaults)
    (ht : t ∈ chart.transitions t.source) (hsingle : t.targets.length ≤ 1)
    (hd : chart.scope history t = some d) :
  ∃ a, chart.Aims history t a d
  := by
  rcases wf.aim_cases ht hsingle with haims | ⟨a, haims, halt⟩
  · exact absurd (effectiveTargets_of_aims_nil haims) (scope_eq_some.mp hd).1
  · use a
    constructor
    case aims => exact haims
    case apart => apply wf.apart_landings hremembers hsiblings halt
    case scope => exact hd

theorem exists_scope_of_landings (haims : t.aims = [a])
    (hapart : chart.Apart (chart.landings history a)) (hne : chart.landings history a ≠ []) :
  ∃ d, chart.Aims history t a d
  := by
  obtain ⟨x, hx⟩ := List.exists_mem_of_ne_nil _ hne
  have htargets : chart.effectiveTargets history t ≠ [] :=
    List.ne_nil_of_mem ((wf.mem_effectiveTargets haims hapart.not_history).mpr hx)
  exact ⟨_, haims, hapart, scope_eq_some.mpr ⟨htargets, rfl⟩⟩

section

variable (haims : chart.Aims history t a d)

include haims

theorem mem_targets_of_aims :
  x ∈ chart.effectiveTargets history t ↔ x ∈ chart.landings history a
  := by
  apply wf.mem_effectiveTargets haims.aims haims.apart.not_history

theorem exists_mem_landings :
  ∃ x, x ∈ chart.landings history a
  := by
  obtain ⟨x, hx⟩ := List.exists_mem_of_ne_nil _ (scope_eq_some.mp haims.scope).1
  use x, (wf.mem_targets_of_aims haims).mp hx

/-- The climbs end at the scope or, for a history node, at its parent. -/
theorem mem_climbs_of_aims {e : Nat} :
  (e, x) ∈ chart.climbs history t a ↔ x ∈ chart.landings history a ∧
    (e = d ∨ (chart.kind a).isHistory = true ∧ chart.parent? a = some e)
  := by
  rw [wf.mem_climbs haims.aims haims.apart.not_history, (scope_eq_some.mp haims.scope).2]

theorem isBelow_of_aims (hx : x ∈ chart.landings history a) (hne : d ≠ root) :
  chart.isBelow x d = true
  := by
  obtain ⟨-, rfl⟩ := scope_eq_some.mp haims.scope
  apply wf.isBelow_domain ((wf.mem_targets_of_aims haims).mpr hx) hne

theorem within_of_aims (hx : x ∈ chart.landings history a) :
  chart.Within x d
  := by
  by_cases hroot : d = root
  · rw [hroot]
    apply wf.within_root (haims.apart.lt_length x hx)
  · right
    apply wf.isBelow_of_aims haims hx hroot

/-- The landings lie below all ends of climbs other than the root. -/
theorem isBelow_of_mem_climbs (hremembers : chart.Remembers history)
    (hsiblings : chart.SiblingDefaults) {e y : Nat} (he : (e, x) ∈ chart.climbs history t a)
    (hne : e ≠ root) (hy : y ∈ chart.landings history a) :
  chart.isBelow y e = true
  := by
  obtain ⟨-, rfl | ⟨hk, hp⟩⟩ := (wf.mem_climbs_of_aims haims).mp he
  · apply wf.isBelow_of_aims haims hy hne
  · apply wf.isBelow_of_mem_landings hremembers hsiblings hk hp hy

end

end WellFormed

end Chart

end Statechart
