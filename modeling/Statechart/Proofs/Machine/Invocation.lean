import Statechart.Proofs.Chart.Compile
import Statechart.Proofs.Machine.Run
import Statechart.Proofs.Resolution.Actions

/-!
# Invocations

Every invocation of a compiled chart is stopped when the node that declares it is exited
(`bracketed_of_ofDocument`).  A snapshot therefore asks for the stop of an invocation as soon as one
of the microsteps behind it exits the owner (`Moves.exists_stop`), and each start that a
snapshot asks for is that of an invocation of the chart (`sound_transition`).
-/

namespace Statechart

namespace Chart

/-! ### Declarations -/

/-- Whether an invocation belongs to the node at `index` and is stopped on its exit. -/
structure Guards (index : Nat) (n : Node) (i : Invocation) : Prop where
  owner : i.owner = index
  stopped : Action.stop i.id ∈ n.exit

variable {document : Document.Machine} {chart : Chart} {ps : List Place} {index order : Nat}
  {taken : List String} {i : Invocation} {n : Node} {id : String}

theorem owner_of_mem_invocationsOf {state : String} {position : Nat}
    {declared : List Document.Invocation}
    (h : i ∈ invocationsOf index state position declared) :
  i.owner = index
  := by
  induction declared generalizing position with
  | nil => cases h
  | cons d declared ih =>
    rcases List.mem_cons.mp h with rfl | h
    · rfl
    · exact ih h

theorem guards_of_linkedFrom {p : Place} (h : LinkedFrom ps index order taken p n)
    (hi : i ∈ n.invocations) :
  Guards index n i
  := by
  constructor
  case owner =>
    rw [h.invocations] at hi
    exact owner_of_mem_invocationsOf hi
  case stopped =>
    rw [h.exit]
    exact List.mem_append_right _ (List.mem_map.mpr ⟨i, hi, rfl⟩)

/-- Whether each invocation of a chart is declared by its owner and stopped when that is
exited. -/
def Bracketed (chart : Chart) : Prop :=
  ∀ id i, chart.invocation? id = some i → i.id = id ∧
    (∃ node, chart.node? i.owner = some node ∧ i ∈ node.invocations) ∧
    Action.stop id ∈ chart.exitActions i.owner

theorem bracketed_of_ofDocument (h : ofDocument document = .ok chart) :
  chart.Bracketed
  := by
  intro id i hi
  have hid : i.id = id := by simpa using List.find?_some hi
  obtain ⟨node, hnode, hmem⟩ := List.mem_flatMap.mp (List.mem_of_find?_eq_some hi)
  obtain ⟨k, hk⟩ := List.mem_iff_getElem?.mp hnode
  obtain ⟨p, order, taken, -, hlinked⟩ := exists_linkedFrom h hk
  obtain ⟨howner, hstopped⟩ := guards_of_linkedFrom hlinked hmem
  have hplace : chart.node? i.owner = some node := by
    rw [howner]
    exact hk
  refine ⟨hid, ⟨node, hplace, hmem⟩, ?_⟩
  rw [exitActions, hplace, ← hid]
  exact hstopped

end Chart

namespace Collection

variable {chart : Chart} {imps : Implementations} {trigger : Event} {c : Collection}
  {action : Action} {actions : List Action} {id : String}

/-- What has been collected stays. -/
theorem actions_subset_expand :
  c.actions ⊆ (c.expand chart imps trigger action).actions
  := by
  rw [Collection.expand]
  split
  · exact List.Subset.refl _
  · exact List.Subset.refl _
  · exact List.subset_append_left _ _
  · exact List.subset_append_left _ _

theorem actions_subset_collect :
  c.actions ⊆ (c.collect chart imps trigger actions).actions
  := by
  rw [Collection.collect]
  induction actions generalizing c with
  | nil => exact List.Subset.refl _
  | cons action actions ih => exact List.Subset.trans actions_subset_expand ih

/-- The stop of an invocation is collected as such. -/
theorem exists_stop_of_mem (h : Action.stop id ∈ actions) :
  ∃ a ∈ (c.collect chart imps trigger actions).actions, a.duty = .stop id
  := by
  rw [Collection.collect]
  induction actions generalizing c with
  | nil => cases h
  | cons action actions ih =>
    rcases List.mem_cons.mp h with rfl | h
    · refine ⟨⟨(Action.stop id).type, .stop id, trigger⟩, ?_, rfl⟩
      rw [List.foldl_cons]
      apply actions_subset_collect (c := c.expand chart imps trigger (.stop id))
      exact List.mem_append_right _ List.mem_cons_self
    · exact ih h

/-- Whether all collected starts are those of invocations of the chart. -/
def Sound (chart : Chart) (actions : List ResolvedAction) : Prop :=
  ∀ a ∈ actions, ∀ i data, a.duty = .start i data → chart.invocation? i.id = some i

theorem sound_startOf {context : Json} {i : Invocation} {data : Option Json}
    (h : startOf chart imps id context trigger = .ok (.start i data)) :
  chart.invocation? i.id = some i
  := by
  rw [startOf] at h
  split at h
  · cases h
  · next invocation hfound =>
    have hid : invocation.id = id := by simpa using List.find?_some hfound
    have hsame : invocation = i := by
      split at h
      · cases h
        rfl
      · obtain ⟨_, -, h⟩ := Outcome.map_eq_ok.mp h
        cases h
        rfl
    rw [← hsame, hid]
    exact hfound

theorem sound_outcome {context : Json} {i : Invocation} {data : Option Json}
    (h : outcome chart imps action context trigger = .ok (.duty (.start i data))) :
  chart.invocation? i.id = some i
  := by
  cases action with
  | start id =>
    obtain ⟨duty, hstart, h⟩ := Outcome.map_eq_ok.mp h
    cases h
    exact sound_startOf hstart
  | named name =>
    rw [outcome, namedDuty] at h
    split at h
    · cases h
    · cases h
  | inline name effect => cases h
  | log expression label => cases h
  | cancel sendId => cases h
  | stop id => cases h
  | send event delay target id =>
    obtain ⟨_, -, h⟩ := Outcome.map_eq_ok.mp h
    cases h
  | sendParent event =>
    obtain ⟨_, -, h⟩ := Outcome.map_eq_ok.mp h
    cases h
  | raise event =>
    obtain ⟨_, -, h⟩ := Outcome.map_eq_ok.mp h
    cases h
  | assign mapping =>
    obtain ⟨_, -, h⟩ := Outcome.map_eq_ok.mp h
    cases h

theorem Sound.expand (h : Sound chart c.actions) (action : Action) :
  Sound chart (c.expand chart imps trigger action).actions
  := by
  rw [Collection.expand]
  split
  · exact h
  · exact h
  · next duty hduty =>
    intro a ha i data hstart
    rcases List.mem_append.mp ha with ha | ha
    · exact h a ha i data hstart
    · rw [List.mem_singleton.mp ha] at hstart
      dsimp only at hstart
      subst hstart
      exact sound_outcome hduty
  · intro a ha i data hstart
    rcases List.mem_append.mp ha with ha | ha
    · exact h a ha i data hstart
    · rw [List.mem_singleton.mp ha] at hstart
      cases hstart

theorem Sound.collect (h : Sound chart c.actions) (actions : List Action) :
  Sound chart (c.collect chart imps trigger actions).actions
  := by
  rw [Collection.collect]
  induction actions generalizing c with
  | nil => exact h
  | cons action actions ih => exact ih (h.expand action)

end Collection

namespace Progress

variable {chart : Chart} {imps : Implementations} {event : Event} {p p' : Progress}
  {xs : List Step} {x : Step} {n : Nat} {id : String}

/-- Whether a microstep exits a node. -/
def Step.Exits (chart : Chart) (n : Nat) (x : Step) : Prop :=
  n ∈ x.before.exiting chart x.transitions

/-- The actions that a microstep collects. -/
theorem actions_after :
  (x.after chart imps).collected.actions =
    (x.before.collected.collect chart imps x.trigger
      (x.before.performed chart x.transitions)).actions
  := (collected_microstep x.before x.transitions).actions

theorem actions_subset_after :
  x.before.collected.actions ⊆ (x.after chart imps).collected.actions
  := by
  rw [actions_after]
  exact Collection.actions_subset_collect

/-- A microstep that exits the owner of an invocation asks for its stop. -/
theorem Step.Exits.exists_stop (h : x.Exits chart n) (imps : Implementations)
    (hstop : Action.stop id ∈ chart.exitActions n) :
  ∃ a ∈ (x.after chart imps).collected.actions, a.duty = .stop id
  := by
  rw [actions_after]
  apply Collection.exists_stop_of_mem
  apply List.mem_append_left
  apply List.mem_append_left
  exact List.mem_flatMap.mpr ⟨n, List.mem_reverse.mpr h, hstop⟩

theorem Settles.actions_subset (h : Settles chart imps event p xs p') :
  p.collected.actions ⊆ p'.collected.actions
  := by
  apply h.preserves (P := fun q => p.collected.actions ⊆ q.collected.actions)
  · exact fun q queue hq => hq
  · exact fun x _ _ hx => List.Subset.trans hx actions_subset_after
  · exact List.Subset.refl _

theorem Settles.exists_stop (h : Settles chart imps event p xs p') (hx : x ∈ xs)
    (hexits : x.Exits chart n) (hstop : Action.stop id ∈ chart.exitActions n) :
  ∃ a ∈ p'.collected.actions, a.duty = .stop id
  := by
  induction h with
  | done hdone => cases hx
  | idle hdone hnone => cases hx
  | step hdone hnext hrest ih =>
    rcases List.mem_cons.mp hx with rfl | hx
    · obtain ⟨a, ha, hduty⟩ := hexits.exists_stop imps hstop
      exact ⟨a, hrest.actions_subset ha, hduty⟩
    · exact ih hx

/-- An active node stays active as long as no microstep exits it. -/
theorem Step.active_after (hn : n ∈ x.before.configuration) (hstays : ¬ x.Exits chart n) :
  n ∈ (x.after chart imps).configuration
  := mem_configuration_microstep.mpr (Or.inl ⟨hn, hstays⟩)

theorem Settles.active (h : Settles chart imps event p xs p')
    (hn : n ∈ p.configuration) (hstays : ∀ x ∈ xs, ¬ x.Exits chart n) :
  n ∈ p'.configuration
  := by
  induction h with
  | done hdone => exact hn
  | idle hdone hnone => exact hn
  | step hdone hnext hrest ih =>
    obtain ⟨hfirst, hstays⟩ := List.forall_mem_cons.mp hstays
    exact ih (Step.active_after (by exact hn) hfirst) hstays

theorem Settles.sound (h : Settles chart imps event p xs p')
    (hp : Collection.Sound chart p.collected.actions) :
  Collection.Sound chart p'.collected.actions
  := by
  apply h.preserves (P := fun q => Collection.Sound chart q.collected.actions) _ _ hp
  · exact fun q queue hq => hq
  · intro x _ _ hx
    rw [actions_after]
    exact hx.collect _

end Progress

namespace Machine

open Progress

variable {m : Machine} {s s' : Snapshot} {event : Event} {xs : List Step} {n : Nat} {id : String}

/-- A snapshot asks for the stop of an invocation if a microstep behind it exits the owner. -/
theorem Moves.exists_stop (h : m.Moves s event xs s') {x : Step} (hx : x ∈ xs)
    (hexits : x.Exits m.chart n) (hstop : Action.stop id ∈ m.chart.exitActions n) :
  ∃ a ∈ s'.actions, a.duty = .stop id
  := by
  cases h with
  | rest => cases hx
  | react hsettles =>
    rcases List.mem_cons.mp hx with rfl | hx
    · obtain ⟨a, ha, hduty⟩ := hexits.exists_stop m.implementations hstop
      exact ⟨a, hsettles.actions_subset ha, hduty⟩
    · exact hsettles.exists_stop hx hexits hstop

/-- A node stays active if no microstep exits it. -/
theorem Moves.isActive (h : m.Moves s event xs s') (hn : s.isActive n = true)
    (hstays : ∀ x ∈ xs, ¬ x.Exits m.chart n) :
  s'.isActive n = true
  := by
  cases h with
  | rest => exact hn
  | react hsettles =>
    obtain ⟨hfirst, hstays⟩ := List.forall_mem_cons.mp hstays
    rw [Snapshot.isActive, List.contains_iff_mem] at hn ⊢
    exact hsettles.active (Step.active_after hn hfirst) hstays

/-- After an event the owner of an invocation is still active, or its stop is asked for. -/
theorem isActive_or_exists_stop (h : m.transition s event = .ok s') (hn : s.isActive n = true)
    (hstop : Action.stop id ∈ m.chart.exitActions n) :
  s'.isActive n = true ∨ ∃ a ∈ s'.actions, a.duty = .stop id
  := by
  obtain ⟨xs, hmoves⟩ := exists_moves h
  by_cases hstays : ∀ x ∈ xs, ¬ x.Exits m.chart n
  · exact Or.inl (hmoves.isActive hn hstays)
  · push Not at hstays
    obtain ⟨x, hx, hexits⟩ := hstays
    exact Or.inr (hmoves.exists_stop hx hexits hstop)

/-- The starts that an answer asks for are those of invocations of the chart. -/
theorem sound_transition (h : m.transition s event = .ok s') :
  Collection.Sound m.chart s'.actions
  := by
  obtain ⟨xs, hmoves⟩ := exists_moves h
  cases hmoves with
  | rest => exact fun a ha => absurd ha List.not_mem_nil
  | react hsettles =>
    apply hsettles.sound
    rw [actions_after]
    apply Collection.Sound.collect
    exact fun a ha => absurd ha List.not_mem_nil

theorem sound_restarted (configuration : NodeSet) (context : Json) :
  Collection.Sound m.chart (m.restarted configuration context).actions
  := by
  rw [restarted]
  apply List.foldlRecOn configuration _
    (motive := fun c : Collection => Collection.Sound m.chart c.actions)
  · exact fun a ha => absurd ha List.not_mem_nil
  · exact fun c hc n _ => hc.collect _

theorem Starts.sound (h : m.Starts s) :
  Collection.Sound m.chart s.actions
  := by
  cases h with
  | initial h =>
    obtain ⟨xs, p, hsettles, rfl⟩ := exists_settles_initial h
    apply hsettles.sound
    rw [entry, (collected_enter _ _).actions]
    apply Collection.Sound.collect
    exact fun a ha => absurd ha List.not_mem_nil
  | restored h =>
    rw [restore] at h
    obtain ⟨configuration, -, h⟩ := Outcome.bind_eq_ok.mp h
    cases h
    exact sound_restarted _ _

end Machine

end Statechart
