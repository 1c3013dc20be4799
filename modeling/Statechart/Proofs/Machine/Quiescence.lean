import Statechart.Proofs.Machine.Run
import Statechart.Proofs.Machine.Seclusion
import Statechart.Proofs.Resolution.Selection

/-!
# Quiescent snapshots

A resolution settles only when no eventless transition is enabled under the event that it saw last.
If the guards of the eventless transitions read nothing but the context, the event is of no account,
and so no snapshot of a machine that is not done leaves an eventless transition to be taken
(`quiescent_of_reaches`).
-/

namespace Statechart

namespace Guard

/-- Whether a formula reads nothing but the context. -/
def Formula.readsContext : Formula → Bool
  | .truthy field => field.scope == .context
  | .compare field _ _ => field.scope == .context
  | .and left right => left.readsContext && right.readsContext
  | .or left right => left.readsContext && right.readsContext
  | .not inner => inner.readsContext

/-- Whether a guard is a formula that reads nothing but the context. -/
def readsContext : Guard → Bool
  | .formula f => f.readsContext
  | .named _ => false

variable {context : Json} {field : Field} {f : Formula} {guard : Guard}
  {named : String → Option Predicate}

theorem Field.value_congr (h : (field.scope == .context) = true) (event event' : Event) :
  field.value context event = field.value context event'
  := by
  rw [Field.value, Field.value, eq_of_beq h]

/-- A formula that reads nothing but the context holds under all events or under none. -/
theorem Formula.holds_congr (h : f.readsContext = true) (event event' : Event) :
  f.holds context event = f.holds context event'
  := by
  induction f with
  | truthy field => rw [holds, holds, Field.value_congr h event event']
  | compare field comparison literal => rw [holds, holds, Field.value_congr h event event']
  | and left right ihl ihr =>
    obtain ⟨hl, hr⟩ := Bool.and_eq_true_iff.mp h
    rw [holds, holds, ihl hl, ihr hr]
  | or left right ihl ihr =>
    obtain ⟨hl, hr⟩ := Bool.and_eq_true_iff.mp h
    rw [holds, holds, ihl hl, ihr hr]
  | not inner ih => rw [holds, holds, ih h]

theorem passes_congr (h : guard.readsContext = true) (event event' : Event) :
  passes named context event guard = passes named context event' guard
  := by
  cases guard with
  | formula f => exact Formula.holds_congr h event event'
  | named name => cases h

end Guard

namespace Chart

/-- Whether the guards of all eventless transitions read nothing but the context. -/
def WatchesContext (chart : Chart) : Prop :=
  ∀ node ∈ chart.nodes, ∀ t ∈ node.transitions, t.isEventless = true →
    t.guard.all Guard.readsContext = true

instance (chart : Chart) : Decidable chart.WatchesContext :=
  inferInstanceAs (Decidable (∀ node ∈ chart.nodes, ∀ t ∈ node.transitions,
    t.isEventless = true → t.guard.all Guard.readsContext = true))

variable {chart : Chart} {imps : Implementations} {configuration : NodeSet} {history : History}
  {context : Json} {event : Event} {eventless : Bool} {n leaf : Nat} {t : Transition}
  {ts kept : List Transition}

theorem WatchesContext.admits_iff (h : chart.WatchesContext) (ht : t ∈ chart.transitions n)
    (event event' : Event) :
  Admits imps context event true t ↔ Admits imps context event' true t
  := by
  obtain ⟨node, hnode, ht⟩ := exists_node_of_mem ht
  refine and_congr_right (fun heventless => ?_)
  have hreads := h node hnode t ht heventless
  cases hguard : t.guard with
  | none => exact Iff.rfl
  | some guard =>
    rw [hguard, Option.all_some] at hreads
    rw [Option.map_some, Option.map_some, Option.getD_some, Option.getD_some,
      Guard.passes_congr hreads event event']

/-- A node without an offer has no transition that is admitted. -/
theorem not_admits_of_firstPassing_eq_none
    (h : chart.firstPassing imps context event eventless n = none)
    (ht : t ∈ chart.transitions n) :
  ¬ Admits imps context event eventless t
  := by
  rw [firstPassing, List.find?_eq_none] at h
  rintro ⟨hcandidate, hguard⟩
  exact h t ht (Bool.and_eq_true_iff.mpr ⟨hcandidate, hguard⟩)

/-! ### An empty selection -/

/-- One more candidate leaves some transition kept. -/
theorem keep_ne_nil (t : Transition) (kept : List Transition) :
  chart.keep configuration history kept t ≠ []
  := by
  rw [keep]
  split
  · exact List.append_ne_nil_of_right_ne_nil _ (List.cons_ne_nil t [])
  · next hloses =>
    rintro rfl
    exact hloses rfl

theorem foldl_keep_eq_nil_iff :
  ts.foldl (chart.keep configuration history) [] = [] ↔ ts = []
  := by
  cases ts using List.reverseRecOn with
  | nil => exact iff_of_true rfl rfl
  | append_singleton ts t =>
    rw [List.foldl_append]
    exact iff_of_false (keep_ne_nil t _)
      (List.append_ne_nil_of_right_ne_nil _ (List.cons_ne_nil t []))

theorem distinct_eq_nil_iff :
  distinct ts = [] ↔ ts = []
  := by
  constructor
  · intro h
    apply List.eq_nil_iff_forall_not_mem.mpr
    intro t ht
    obtain ⟨u, hu, -⟩ := exists_order_distinct ht
    rw [h] at hu
    cases hu
  · rintro rfl
    rfl

/-- Nothing is selected only if no active leaf takes a transition. -/
theorem select_eq_nil_iff :
  chart.select imps configuration history context event eventless = [] ↔
    ∀ leaf ∈ chart.leaves configuration, chart.takenBy imps context event eventless leaf = none
  := by
  rw [select, foldl_keep_eq_nil_iff, distinct_eq_nil_iff, List.filterMap_eq_nil_iff]

/-- If nothing is selected, no transition of an active leaf or of a node around it is admitted. -/
theorem not_admits_of_select_eq_nil
    (h : chart.select imps configuration history context event eventless = [])
    (hleaf : leaf ∈ chart.leaves configuration) (hn : chart.Within leaf n)
    (ht : t ∈ chart.transitions n) :
  ¬ Admits imps context event eventless t
  := by
  have hnone := select_eq_nil_iff.mp h leaf hleaf
  rw [takenBy, List.findSome?_eq_none_iff] at hnone
  refine not_admits_of_firstPassing_eq_none (hnone n ?_) ht
  rcases hn with rfl | hbelow
  · exact List.mem_cons_self
  · exact List.mem_cons_of_mem _ (isBelow_iff_mem.mp hbelow)

end Chart

namespace Progress

variable {chart : Chart} {imps : Implementations} {current event : Event} {queue : List Event}
  {p p' : Progress} {xs : List Step}

/-- If nothing comes next, no eventless transition is enabled under the event that was tried
last. -/
theorem exists_enabled_eq_nil (h : p.upcoming chart imps current queue = none) :
  ∃ last, p.enabled chart imps last true = []
  := by
  induction queue generalizing current with
  | nil =>
    rw [upcoming] at h
    split at h
    · next hnil => exact ⟨current, hnil⟩
    · cases h
  | cons next rest ih =>
    rw [upcoming] at h
    split at h
    · split at h
      · exact ih h
      · cases h
    · cases h

/-- A resolution that settles before it is done enables no eventless transition under some event. -/
theorem Settles.exists_enabled_eq_nil (h : Settles chart imps event p xs p')
    (hdone : p'.done = false) :
  ∃ last, p'.enabled chart imps last true = []
  := by
  induction h with
  | done h =>
    rw [h] at hdone
    cases hdone
  | idle h hnone =>
    obtain ⟨last, hlast⟩ := Progress.exists_enabled_eq_nil hnone
    exact ⟨last, hlast⟩
  | step h hnext hrest ih => exact ih hdone

end Progress

namespace Machine

open Progress Chart

variable {m : Machine} {s s₀ s' : Snapshot} {event : Event} {p p' : Progress} {xs : List Step}

/-- Whether a snapshot leaves no eventless transition to be taken: neither an active leaf nor a node
around it has one that is admitted, under any event. -/
def Quiescent (m : Machine) (s : Snapshot) : Prop :=
  ∀ leaf ∈ m.chart.leaves s.configuration, ∀ n, m.chart.Within leaf n →
    ∀ t ∈ m.chart.transitions n, ∀ event, ¬ Admits m.implementations s.context event true t

/-- What a resolution settles to is quiescent. -/
theorem quiescent_of_settles (hwatches : m.chart.WatchesContext)
    (hsettles : Settles m.chart m.implementations event p xs p') (previous : Option Snapshot)
    (hdone : (m.snapshotOf event previous p').done = false) :
  m.Quiescent (m.snapshotOf event previous p')
  := by
  obtain ⟨last, hlast⟩ := hsettles.exists_enabled_eq_nil hdone
  intro leaf hleaf n hn t ht event'
  rw [hwatches.admits_iff ht event' last]
  exact not_admits_of_select_eq_nil hlast hleaf hn ht

/-- An event keeps a snapshot quiescent, or leads to a quiescent one. -/
theorem quiescent_transition (hwatches : m.chart.WatchesContext)
    (hstep : m.transition s event = .ok s') (hs : s.done = false → m.Quiescent s)
    (hdone : s'.done = false) :
  m.Quiescent s'
  := by
  obtain ⟨xs, hmoves⟩ := exists_moves hstep
  cases hmoves with
  | rest => exact hs hdone
  | react hsettles => exact quiescent_of_settles hwatches hsettles (some s) hdone

/-- If the guards of the eventless transitions read nothing but the context, a machine that is not
done leaves no eventless transition to be taken in any snapshot that it reaches. -/
theorem quiescent_of_reaches (hwatches : m.chart.WatchesContext) (hinitial : m.initial = .ok s₀)
    (hreaches : m.Reaches s₀ s) (hdone : s.done = false) :
  m.Quiescent s
  := by
  induction hreaches with
  | refl =>
    obtain ⟨xs, p, hsettles, rfl⟩ := exists_settles_initial hinitial
    exact quiescent_of_settles hwatches hsettles none hdone
  | step hreaches hstep ih => exact quiescent_transition hwatches hstep ih hdone

/-- A machine that goes on as long as `ctx.ready` holds; the transition from `b` to `c` withdraws
it. -/
def relay : Document.Machine where
  context := .obj [("ready", .bool false)]
  root := .node { initial := some "a" }
    [("a", .node { on := [("GO", [{
        targets := ["b"], actions := [.assign (.fields [("ready", .value (.bool true))])] }])] } []),
     ("b", .node { always := [{
        targets := ["c"], guard := some "ctx.ready",
        actions := [.assign (.fields [("ready", .value (.bool false))])] }] } []),
     ("c", .node { always := [{ targets := ["d"], guard := some "ctx.ready" }] } []),
     ("d", .node {} [])]

theorem quiescent_of_reaches_relay :
  ∃ chart, ofDocument relay = .ok chart ∧ chart.WatchesContext ∧
    ∃ s₀ s, (ofChart chart).initial = .ok s₀ ∧ (ofChart chart).Reaches s₀ s ∧
      s.configuration = [0, 3] ∧ s.done = false ∧ (ofChart chart).Quiescent s
  := by
  obtain ⟨chart, h, hp⟩ := Outcome.exists_of_any (x := ofDocument relay)
    (p := fun chart => chart.WatchesContext ∧
      (ofChart chart).initial.toOption.any (fun s₀ =>
        ((ofChart chart).transition s₀ (.bare "GO")).toOption.any
          (fun s => s.configuration = [0, 3] ∧ s.done = false)))
    (by decide +kernel)
  obtain ⟨hwatches, hs₀⟩ := of_decide_eq_true hp
  obtain ⟨s₀, hinitial, hs⟩ := Outcome.exists_of_any hs₀
  obtain ⟨s, hstep, hs⟩ := Outcome.exists_of_any hs
  obtain ⟨hconfiguration, hdone⟩ := of_decide_eq_true hs
  have hreaches : (ofChart chart).Reaches s₀ s := .step .refl hstep
  use chart, h, hwatches, s₀, s, hinitial, hreaches, hconfiguration, hdone
  exact quiescent_of_reaches (m := ofChart chart) hwatches hinitial hreaches hdone

end Machine

end Statechart
