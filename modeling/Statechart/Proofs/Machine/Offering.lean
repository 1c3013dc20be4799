import Mathlib.Data.List.Infix
import Mathlib.Data.List.Sort
import Statechart.Proofs.Machine.Queue
import Statechart.Proofs.Machine.Restart

/-!
# Failures of restored duties

A duty of an active node that fails when the node is entered raises an error event, which is
offered to the transitions before the next event.  When the machine is restored the failures are
recorded but their events are withheld (`restore_withholds`): the restored machine is the one that
would have offered them exactly where none of them takes a transition.
-/

namespace Statechart

namespace Collection.Ended

variable {chart : Chart} {imps : Implementations} {trigger : Event} {context : Json} {e : Ended}

/-- The event that tells of the failure of the action, if it has failed. -/
def failure? (e : Ended) : Option Event :=
  match e.ending with
  | .ok _ => none
  | .error reason => some (failure e.action.type reason)

/-- An action that runs again when its node is restored raises nothing but its failure, and leaves
the context as it is. -/
theorem event?_of_restarts (hrestarts : Machine.restarts e.action = true)
    (h : Ends chart imps trigger context e.action e.ending) :
  e.event? = e.failure? ∧ e.after context = context
  := by
  obtain ⟨action, ending⟩ := e
  cases h with
  | sent => exact ⟨rfl, rfl⟩
  | unsent => exact ⟨rfl, rfl⟩
  | started => exact ⟨rfl, rfl⟩
  | unstarted => exact ⟨rfl, rfl⟩
  | _ => cases hrestarts

end Collection.Ended

namespace Progress

variable {chart : Chart} {imps : Implementations} {current event : Event} {p p' : Progress}
  {turns : List Turn} {queue : List Event}

/-! ### Events that take nothing -/

/-- Whether a resolution takes no transition while it goes through some events: none of them takes
one, and none without an event is taken under the current event or under one of them. -/
def Ignores (chart : Chart) (imps : Implementations) (p : Progress) (current : Event)
    (events : List Event) : Prop :=
  (∀ event ∈ current :: events, p.enabled chart imps event true = []) ∧
    ∀ event ∈ events, p.enabled chart imps event false = []

theorem ignores_cons_iff :
  p.Ignores chart imps current (event :: queue) ↔
    p.enabled chart imps current true = [] ∧ p.enabled chart imps event false = [] ∧
      p.Ignores chart imps event queue
  := by
  constructor
  · rintro ⟨heventless, hevents⟩
    obtain ⟨hcurrent, heventless⟩ := List.forall_mem_cons.mp heventless
    obtain ⟨hevent, hqueue⟩ := List.forall_mem_cons.mp hevents
    exact ⟨hcurrent, hevent, heventless, hqueue⟩
  · rintro ⟨hcurrent, hevent, heventless, hqueue⟩
    exact ⟨List.forall_mem_cons.mpr ⟨hcurrent, heventless⟩,
      List.forall_mem_cons.mpr ⟨hevent, hqueue⟩⟩

/-- A turn that pops an event which takes no transition does nothing else. -/
theorem Turn.next_of_eq_nil (h : p.enabled chart imps event false = []) :
  Turn.next chart imps ⟨p, current, some event⟩ = p.pop
  := by
  rw [next, step?_of_eq_nil h]

/-- A resolution takes no transition if and only if it ignores its queue. -/
theorem Spins.ignores_iff (h : Spins chart imps current p turns p') (hdone : p.done = false) :
  turns.filterMap (Turn.step? chart imps) = [] ↔ p.Ignores chart imps current p.queue
  := by
  induction h with
  | done h =>
    rw [h] at hdone
    cases hdone
  | idle h hnone hqueue =>
    rw [hqueue]
    exact iff_of_true rfl ⟨List.forall_mem_singleton.mpr hnone, List.forall_mem_nil _⟩
  | @turn current p popped turns p' h hdue hrest ih =>
    cases popped with
    | none =>
      exact iff_of_false (List.cons_ne_nil _ _) (fun hall => hdue (hall.1 _ List.mem_cons_self))
    | some event =>
      obtain ⟨hnone, hhead⟩ := hdue
      obtain ⟨rest, hqueue⟩ := List.head?_eq_some_iff.mp hhead
      dsimp only at hnone hqueue
      rw [hqueue, ignores_cons_iff]
      by_cases hevent : p.enabled chart imps event false = []
      · have hpop : p.pop.queue = rest := by rw [pop, hqueue, List.tail_cons]
        rw [Turn.next_of_eq_nil hevent, hpop] at ih
        rw [List.filterMap_cons_none (Turn.step?_of_eq_nil hevent), ih h]
        exact ⟨fun hall => ⟨hnone, hevent, hall⟩, fun hall => hall.2.2⟩
      · rw [List.filterMap_cons_some (Turn.step?_of_ne_nil hevent)]
        exact iff_of_false (List.cons_ne_nil _ _) (fun hall => hevent hall.2.1)

/-- A resolution that ignores its queue only loses it. -/
theorem exists_spins_of_ignores (hdone : p.done = false) (h : p.Ignores chart imps current queue) :
  ∃ turns, Spins chart imps current { p with queue := queue } turns { p with queue := [] }
  := by
  induction queue generalizing current with
  | nil => exact ⟨[], .idle hdone (h.1 _ List.mem_cons_self) rfl⟩
  | cons event rest ih =>
    obtain ⟨hcurrent, hevent, hrest⟩ := ignores_cons_iff.mp h
    obtain ⟨turns, hturns⟩ := ih hrest
    have hdue : Turn.Due chart imps ⟨{ p with queue := event :: rest }, current, some event⟩ :=
      ⟨hcurrent, rfl⟩
    have hnext : Turn.next chart imps ⟨{ p with queue := event :: rest }, current, some event⟩ =
        { p with queue := rest } := Turn.next_of_eq_nil hevent
    exact ⟨_, .turn hdone hdue (hnext ▸ hturns)⟩

/-- The events of the queue are the first ones that are popped. -/
theorem Spins.queue_prefix (h : Spins chart imps current p turns p')
    (hraised : p.collected.raised = []) (hdone : p'.done = false) :
  p.queue <+: turns.filterMap Turn.popped
  := by
  have hqueue := h.queue_eq hraised
  rw [h.queue_eq_nil hdone, List.append_nil] at hqueue
  exact ⟨_, hqueue⟩

/-! ### Entry -/

/-- Where no final node is entered, the nodes become active and their entry actions are collected,
and that is all. -/
theorem foldl_enterNode_of_open {trigger : Event} {nodes : List Nat}
    (hopen : ∀ n ∈ nodes, (chart.kind n).isFinal = false) (p : Progress) :
  nodes.foldl (enterNode chart imps trigger) p =
    { p with
      configuration := nodes.foldl (fun s n => NodeSet.insert n s) p.configuration
      collected := p.collected.collect chart imps trigger (nodes.flatMap chart.entryActions) }
  := by
  induction nodes generalizing p with
  | nil => rfl
  | cons n nodes ih =>
    obtain ⟨hn, hopen⟩ := List.forall_mem_cons.mp hopen
    have henter : p.enterNode chart imps trigger n =
        { p with
          configuration := NodeSet.insert n p.configuration
          collected := p.collected.collect chart imps trigger (chart.entryActions n) } := by
      rw [enterNode]
      split
      · next hkind _ =>
        rw [hkind] at hn
        cases hn
      · rfl
    rw [List.foldl_cons, ih hopen, henter, List.flatMap_cons, Collection.collect_append]
    rfl

end Progress

namespace Chart

/-- Whether all that the entry of a node does is done again when the node is restored. -/
def IsRedone (chart : Chart) (n : Nat) : Prop :=
  (∀ a ∈ chart.entryActions n, Machine.restarts a = true) ∧ (chart.kind n).isFinal = false

end Chart

namespace Machine

open Collection (Ended Runs)
open Progress

variable {m : Machine} {document : Document.Machine} {configuration : NodeSet} {value : StateValue}
  {context : Json}

/-- The restored resolution that has still to go through the failures of the actions that run
again. -/
def offering (m : Machine) (configuration : NodeSet) (context : Json) : Progress where
  configuration
  history := []
  collected := { m.restarted configuration context with raised := [] }
  queue := (m.restarted configuration context).raised

/-- Whether a snapshot is that of the restored resolution when it has gone through the failures. -/
def Offers (m : Machine) (configuration : NodeSet) (context : Json) (s : Snapshot) : Prop :=
  ∃ turns p, Spins m.chart m.implementations .init (m.offering configuration context) turns p ∧
    s = m.snapshotOf .init none p

/-- The actions that run again leave the context as it is, and raise nothing but their failures. -/
theorem exists_runs_restarted (m : Machine) (configuration : NodeSet) (context : Json) :
  ∃ run, run.map Ended.action =
      configuration.flatMap (fun n => (m.chart.entryActions n).filter restarts) ∧
    Runs m.chart m.implementations .init context run context ∧
    m.restarted configuration context =
      ⟨context, run.filterMap Ended.failure?, run.filterMap (Ended.entry? .init)⟩
  := by
  obtain ⟨run, last, hactions, hruns⟩ := Collection.exists_runs m.chart m.implementations .init
    (configuration.flatMap (fun n => (m.chart.entryActions n).filter restarts)) context
  have hrestarts : ∀ e ∈ run, restarts e.action = true := by
    intro e he
    have ha := List.mem_map_of_mem (f := Ended.action) he
    rw [hactions] at ha
    obtain ⟨n, -, ha⟩ := List.mem_flatMap.mp ha
    exact (List.mem_filter.mp ha).2
  have hcollected := Collection.collect_of_runs (c := { context := context }) hruns
  rw [hactions, ← restarted_eq, List.nil_append, List.nil_append] at hcollected
  have hsame : last = context ∧ run.filterMap Ended.event? = run.filterMap Ended.failure? := by
    clear hactions hcollected
    induction hruns with
    | nil => exact ⟨rfl, rfl⟩
    | @cons context e run last hends _ ih =>
      obtain ⟨he, hrestarts⟩ := List.forall_mem_cons.mp hrestarts
      obtain ⟨hevent, hafter⟩ := Ended.event?_of_restarts he hends
      obtain ⟨hlast, hrun⟩ := ih hrestarts
      rw [List.filterMap_cons, List.filterMap_cons, hevent, hrun]
      exact ⟨hlast.trans hafter, rfl⟩
  obtain ⟨rfl, hevents⟩ := hsame
  rw [hevents] at hcollected
  exact ⟨run, hactions, hruns, hcollected⟩

/-- Where the nodes do on entry only what is done again, to enter them is to offer the
failures. -/
theorem enter_eq_offering (hincreasing : configuration.Pairwise (· < ·))
    (hredone : ∀ n ∈ configuration, m.chart.IsRedone n) (context : Json) :
  enter m.chart m.implementations .init
      { configuration := [], history := [], collected := { context } } configuration =
    m.offering configuration context
  := by
  have hactions : configuration.flatMap m.chart.entryActions =
      configuration.flatMap (fun n => (m.chart.entryActions n).filter restarts) := by
    apply List.flatMap_congr
    intro n hn
    exact (List.filter_eq_self.mpr (hredone n hn).1).symm
  have hnodes : configuration.foldl (fun s n => NodeSet.insert n s) [] = configuration := by
    apply List.Pairwise.eq_of_mem_iff (r := (· < ·))
      (NodeSet.foldl_insert_increasing _ List.Pairwise.nil) hincreasing
    intro n
    rw [NodeSet.mem_foldl_insert]
    exact or_iff_right List.not_mem_nil
  rw [enter, foldl_enterNode_of_open (fun n hn => (hredone n hn).2), hactions, ← restarted_eq,
    hnodes]
  rfl

/-- What becomes of the failures when a configuration is restored to a snapshot, where `run` are the
actions that run again.  They are recorded in the snapshot, but their events are withheld: the
snapshot is that of the resolution that has still to go through them, without its queue.  To this
resolution the entry of the nodes comes as well, where these do on entry only what is done again.
It takes the events of the failures first, in order; it takes no transition if and only if it
ignores them, and if so the snapshot is the one where the events have been offered. -/
structure Withholds (m : Machine) (configuration : NodeSet) (context : Json) (run : List Ended)
    (s : Snapshot) : Prop where
  actions : run.map Ended.action =
    configuration.flatMap (fun n => (m.chart.entryActions n).filter restarts)
  runs : Runs m.chart m.implementations .init context run context
  recorded : s.actions = run.filterMap (Ended.entry? .init)
  withheld : (m.offering configuration context).queue = run.filterMap Ended.failure?
  snapshot : s = m.snapshotOf .init none { m.offering configuration context with queue := [] }
  entered : (∀ n ∈ configuration, m.chart.IsRedone n) →
    enter m.chart m.implementations .init
        { configuration := [], history := [], collected := { context } } configuration =
      m.offering configuration context
  popped : ∀ turns p,
    Spins m.chart m.implementations .init (m.offering configuration context) turns p →
    p.done = false → run.filterMap Ended.failure? <+: turns.filterMap Turn.popped
  ignored_iff : ∀ turns p,
    Spins m.chart m.implementations .init (m.offering configuration context) turns p →
    (turns.filterMap (Turn.step? m.chart m.implementations) = [] ↔
      (m.offering configuration context).Ignores m.chart m.implementations .init
        (run.filterMap Ended.failure?))
  offers : (m.offering configuration context).Ignores m.chart m.implementations .init
      (run.filterMap Ended.failure?) →
    m.Offers configuration context s

/-- For every accepted definition, a persisted state is restored with all actions that run again on
the nodes of its configuration, and the events of those that fail are withheld. -/
theorem restore_withholds (context : Json) (h : Chart.ofDocument document = .ok m.chart)
    (hnames : m.chart.configurationOf value = .ok configuration) :
  ∃ s run, m.restore ⟨value, context⟩ = .ok s ∧ m.Withholds configuration context run s
  := by
  have legal := Chart.legal_of_configurationOf (Chart.wellFormed_of_ofDocument h) hnames
  obtain ⟨run, hactions, hruns, hrestarted⟩ := exists_runs_restarted m configuration context
  have hqueue : (m.offering configuration context).queue = run.filterMap Ended.failure? :=
    congrArg Collection.raised hrestarted
  have hcontext : (m.offering configuration context).collected.context = context :=
    congrArg Collection.context hrestarted
  have hs : m.restore ⟨value, context⟩ =
      .ok (m.snapshotOf .init none { m.offering configuration context with queue := [] }) := by
    rw [restore, hnames]
    dsimp only [snapshotOf]
    rw [hcontext]
    rfl
  refine ⟨_, run, hs, ?_⟩
  constructor
  case actions => exact hactions
  case runs => exact hruns
  case recorded => exact congrArg Collection.actions hrestarted
  case withheld => exact hqueue
  case snapshot => rfl
  case entered => exact fun hredone => enter_eq_offering legal.increasing hredone context
  case popped =>
    intro turns p hspins hdone
    rw [← hqueue]
    exact hspins.queue_prefix rfl hdone
  case ignored_iff =>
    intro turns p hspins
    rw [← hqueue]
    exact hspins.ignores_iff rfl
  case offers =>
    intro hignores
    rw [← hqueue] at hignores
    obtain ⟨turns, hspins⟩ := exists_spins_of_ignores rfl hignores
    exact ⟨turns, _, hspins, rfl⟩

theorem restore_withholds_owing :
  ∃ chart, Chart.ofDocument owing = .ok chart ∧
    chart.configurationOf (.leaf "p") = .ok [0, 1, 2, 3, 4] ∧
    ∃ s run, (ofChart chart).restore ⟨.leaf "p", .null⟩ = .ok s ∧
      (ofChart chart).Withholds [0, 1, 2, 3, 4] .null run s ∧
      run.length = 4 ∧ (run.filterMap Ended.failure?).length = 2 ∧
      (ofChart chart).Offers [0, 1, 2, 3, 4] .null s
  := by
  obtain ⟨chart, h, hp⟩ := Outcome.exists_of_any (x := Chart.ofDocument owing)
    (p := fun chart =>
      let p := (ofChart chart).offering [0, 1, 2, 3, 4] .null
      (chart.configurationOf (.leaf "p")).toOption.any (· = [0, 1, 2, 3, 4]) &&
        (p.queue.length == 2 && ([0, 1, 2, 3, 4].flatMap
          (fun n => (chart.entryActions n).filter restarts)).length == 4) &&
        ((Event.init :: p.queue).all (fun event => (p.enabled chart {} event true).isEmpty) &&
          p.queue.all (fun event => (p.enabled chart {} event false).isEmpty)))
    (by decide +kernel)
  simp only [Bool.and_eq_true, beq_iff_eq, List.all_eq_true, List.isEmpty_iff] at hp
  obtain ⟨⟨hnames, hqueue, hactions⟩, hignores⟩ := hp
  obtain ⟨configuration, hnames, hconfiguration⟩ := Outcome.exists_of_any hnames
  rw [of_decide_eq_true hconfiguration] at hnames
  obtain ⟨s, run, hs, hwithholds⟩ := restore_withholds (m := ofChart chart) .null h hnames
  have hlength := congrArg List.length hwithholds.actions
  rw [List.length_map] at hlength
  rw [hwithholds.withheld] at hqueue hignores
  exact ⟨chart, h, hnames, s, run, hs, hwithholds, hlength.trans hactions, hqueue,
    hwithholds.offers hignores⟩

/-- A machine whose first state invokes something with data that fail, and leads to the second one
when something fails. -/
def wishing : Document.Machine where
  root := .node { initial := some "a" }
    [("a", .node
      { invoke := [{ id := some "x", src := "s", data := some (.whole (.named "nope")) }]
        on := [("error.execution", [{ targets := ["b"] }])] } []),
     ("b", .node {} [])]

/-- The snapshot of the start of a machine is one where the failures have been offered, if the
default nodes do on entry only what is done again. -/
theorem offers_of_initial {s : Snapshot} (hentry : m.entry = m.offering configuration m.context)
    (h : m.initial = .ok s) :
  m.Offers configuration m.context s
  := by
  rw [initial] at h
  obtain ⟨p, hp, rfl⟩ := Outcome.map_eq_ok.mp h
  unfold start at hp
  split at hp
  · cases hp
  · obtain ⟨turns, hturns⟩ := spins_of_settle hp
    exact ⟨turns, p, hentry ▸ hturns, rfl⟩

/-- The resolution that goes through the failures has one snapshot. -/
theorem Offers.unique {s s' : Snapshot} (h : m.Offers configuration context s)
    (h' : m.Offers configuration context s') :
  s = s'
  := by
  obtain ⟨turns, p, hspins, rfl⟩ := h
  obtain ⟨turns', p', hspins', rfl⟩ := h'
  rw [(hspins.unique hspins').2]

/-- The restored machine stays in its first state, where the one that starts there goes on. -/
theorem not_offers_wishing :
  ∃ chart, Chart.ofDocument wishing = .ok chart ∧ (∀ n ∈ [0, 1], chart.IsRedone n) ∧
    ∃ s s', (ofChart chart).restore ⟨.leaf "a", chart.context⟩ = .ok s ∧
      s.configuration = [0, 1] ∧ ¬ (ofChart chart).Offers [0, 1] chart.context s ∧
      (ofChart chart).initial = .ok s' ∧
      s'.configuration = [0, 2] ∧ (ofChart chart).Offers [0, 1] chart.context s'
  := by
  obtain ⟨chart, h, hp⟩ := Outcome.exists_of_any (x := Chart.ofDocument wishing)
    (p := fun chart =>
      (((ofChart chart).restore ⟨.leaf "a", chart.context⟩).toOption.any
          (·.configuration = [0, 1]) &&
        (ofChart chart).initial.toOption.any (·.configuration = [0, 2])) &&
      (chart.addDefaults Chart.root [] == [0, 1] &&
        [0, 1].all (fun n =>
          (chart.entryActions n).all restarts && (chart.kind n).isFinal == false)))
    (by decide +kernel)
  simp only [Bool.and_eq_true, beq_iff_eq, List.all_eq_true] at hp
  obtain ⟨⟨hrestore, hinitial⟩, hdefaults, hredone⟩ := hp
  obtain ⟨s, hs, hrestored⟩ := Outcome.exists_of_any hrestore
  obtain ⟨s', hs', hreached⟩ := Outcome.exists_of_any hinitial
  replace hrestored := of_decide_eq_true hrestored
  replace hreached := of_decide_eq_true hreached
  have hentry : (ofChart chart).entry = (ofChart chart).offering [0, 1] chart.context := by
    rw [← enter_eq_offering (m := ofChart chart) (by decide) hredone, ← hdefaults]
    rfl
  have hoffers := offers_of_initial hentry hs'
  refine ⟨chart, h, hredone, s, s', hs, hrestored, fun hcontra => ?_, hs', hreached, hoffers⟩
  rw [hcontra.unique hoffers, hreached] at hrestored
  cases hrestored

end Machine

end Statechart
