import Statechart.Proofs.Machine.Invocation
import Statechart.Proofs.Machine.Seclusion

/-!
# Cancellations

If nothing in a chart asks for the stop of an invocation but the exit of the node that owns it, then
a snapshot asks for it only if one of the microsteps behind it exits the owner
(`Moves.exits_of_stop`).
-/

namespace Statechart

/-- Whether an action stops an invocation. -/
def Action.isStop (id : String) : Action → Bool
  | .stop other => other == id
  | _ => false

namespace Chart

/-- Whether the stop of an invocation is asked for on the exit of its owner, and nowhere else. -/
def reserves (chart : Chart) (i : Invocation) : Bool :=
  chart.nodes.zipIdx.all (fun e =>
    e.1.entry.all (fun a => !a.isStop i.id) &&
      e.1.transitions.all (fun t => t.actions.all (fun a => !a.isStop i.id)) &&
      (e.2 == i.owner || e.1.exit.all (fun a => !a.isStop i.id)))

variable {chart : Chart} {i : Invocation} {action : Action} {k : Nat} {t : Transition}

/-- What a chart that reserves the stop of an invocation asks of one of its nodes. -/
theorem exists_node_of_reserves (h : chart.reserves i = true) {α : Type} {f : Node → List α} {x : α}
    (hx : x ∈ ((chart.node? k).map f).getD []) :
  ∃ node, x ∈ f node ∧ (∀ a ∈ node.entry, a.isStop i.id = false) ∧
    (∀ t ∈ node.transitions, ∀ a ∈ t.actions, a.isStop i.id = false) ∧
    (k = i.owner ∨ ∀ a ∈ node.exit, a.isStop i.id = false)
  := by
  cases hnode : chart.node? k with
  | none =>
    rw [hnode] at hx
    cases hx
  | some node =>
    rw [hnode] at hx
    refine ⟨node, hx, ?_⟩
    have hall := List.all_eq_true.mp h (node, k) (List.mk_mem_zipIdx_iff_getElem?.mpr hnode)
    simpa [and_assoc] using hall

theorem isStop_entryActions (h : chart.reserves i = true) (ha : action ∈ chart.entryActions k) :
  action.isStop i.id = false
  := by
  obtain ⟨node, ha, hentry, -⟩ := exists_node_of_reserves h ha
  exact hentry action ha

theorem isStop_exitActions (h : chart.reserves i = true) (ha : action ∈ chart.exitActions k)
    (hk : k ≠ i.owner) :
  action.isStop i.id = false
  := by
  obtain ⟨node, ha, -, -, hexit⟩ := exists_node_of_reserves h ha
  exact hexit.resolve_left hk action ha

theorem isStop_transitions (h : chart.reserves i = true) (ht : t ∈ chart.transitions k)
    (ha : action ∈ t.actions) :
  action.isStop i.id = false
  := by
  obtain ⟨node, ht, -, htransitions, -⟩ := exists_node_of_reserves h ht
  exact htransitions t ht action ha

end Chart

namespace Collection

variable {chart : Chart} {imps : Implementations} {trigger : Event} {c : Collection}
  {action : Action} {actions : List Action} {a : ResolvedAction} {id : String}

/-- Only the stop of an invocation comes to one. -/
theorem isStop_of_outcome {context : Json}
    (h : outcome chart imps action context trigger = .ok (.duty (.stop id))) :
  action.isStop id = true
  := by
  cases action with
  | stop other =>
    cases h
    exact beq_self_eq_true id
  | start other =>
    obtain ⟨duty, hstart, h⟩ := Outcome.map_eq_ok.mp h
    cases h
    rw [startOf] at hstart
    split at hstart
    · cases hstart
    · split at hstart
      · cases hstart
      · obtain ⟨_, -, hstart⟩ := Outcome.map_eq_ok.mp hstart
        cases hstart
  | named name =>
    rw [outcome, namedDuty] at h
    split at h
    · cases h
    · cases h
  | inline name effect => cases h
  | log expression label => cases h
  | cancel sendId => cases h
  | send event delay target id =>
    obtain ⟨_, -, h⟩ := Outcome.map_eq_ok.mp h
    cases h
  | sendParent event =>
    obtain ⟨_, -, h⟩ := Outcome.map_eq_ok.mp h
    cases h
  | raise event =>
    obtain ⟨_, -, h⟩ := Outcome.map_eq_ok.mp h
    cases h
  | assign mapping =>
    obtain ⟨_, -, h⟩ := Outcome.map_eq_ok.mp h
    cases h

theorem isStop_of_expand (ha : a ∈ (c.expand chart imps trigger action).actions)
    (hduty : a.duty = .stop id) :
  a ∈ c.actions ∨ action.isStop id = true
  := by
  rw [Collection.expand] at ha
  split at ha
  · exact Or.inl ha
  · exact Or.inl ha
  · next duty houtcome =>
    rcases List.mem_append.mp ha with ha | ha
    · exact Or.inl ha
    · rw [List.mem_singleton.mp ha] at hduty
      dsimp only at hduty
      subst hduty
      exact Or.inr (isStop_of_outcome houtcome)
  · rcases List.mem_append.mp ha with ha | ha
    · exact Or.inl ha
    · rw [List.mem_singleton.mp ha] at hduty
      cases hduty

/-- The stop of an invocation is collected from an action that stops it. -/
theorem exists_isStop_of_collect (ha : a ∈ (c.collect chart imps trigger actions).actions)
    (hduty : a.duty = .stop id) :
  a ∈ c.actions ∨ ∃ action ∈ actions, action.isStop id = true
  := by
  rw [Collection.collect] at ha
  induction actions generalizing c with
  | nil => exact Or.inl ha
  | cons action actions ih =>
    rcases ih ha with ha | ⟨other, hother, hstop⟩
    · rcases isStop_of_expand ha hduty with ha | hstop
      · exact Or.inl ha
      · exact Or.inr ⟨action, List.mem_cons_self, hstop⟩
    · exact Or.inr ⟨other, List.mem_cons_of_mem action hother, hstop⟩

end Collection

namespace Progress

variable {chart : Chart} {imps : Implementations} {event : Event} {p p' : Progress}
  {xs : List Step} {x : Step} {i : Invocation} {a : ResolvedAction}

open Chart in
/-- A microstep that asks for the stop of an invocation exits the owner. -/
theorem Step.exits_of_stop (h : chart.reserves i = true) (henabled : x.Enabled chart imps)
    (ha : a ∈ (x.after chart imps).collected.actions) (hduty : a.duty = .stop i.id) :
  a ∈ x.before.collected.actions ∨ x.Exits chart i.owner
  := by
  rw [actions_after] at ha
  rcases Collection.exists_isStop_of_collect ha hduty with ha | ⟨action, ha, hstop⟩
  · exact Or.inl ha
  · right
    rw [performed, List.mem_append, List.mem_append] at ha
    rcases ha with (ha | ha) | ha
    · obtain ⟨k, hk, ha⟩ := List.mem_flatMap.mp ha
      by_cases howner : k = i.owner
      · rw [← howner]
        exact List.mem_reverse.mp hk
      · rw [isStop_exitActions h ha howner] at hstop
        cases hstop
    · obtain ⟨t, ht, ha⟩ := List.mem_flatMap.mp ha
      obtain ⟨event, eventless, heq⟩ := henabled
      rw [heq, enabled] at ht
      obtain ⟨k, ht⟩ := exists_mem_transitions_of_mem_select ht
      rw [isStop_transitions h ht ha] at hstop
      cases hstop
    · obtain ⟨k, -, ha⟩ := List.mem_flatMap.mp ha
      rw [isStop_entryActions h ha] at hstop
      cases hstop

theorem Settles.exits_of_stop (h : Settles chart imps event p xs p')
    (hreserves : chart.reserves i = true) (ha : a ∈ p'.collected.actions)
    (hduty : a.duty = .stop i.id) :
  a ∈ p.collected.actions ∨ ∃ x ∈ xs, x.Exits chart i.owner
  := by
  induction h with
  | done hdone => exact Or.inl ha
  | idle hdone hnone => exact Or.inl ha
  | step hdone hnext hrest ih =>
    rcases ih ha with ha | ⟨x, hx, hexits⟩
    · rcases Step.exits_of_stop hreserves (enabled_step hnext) ha hduty with ha | hexits
      · exact Or.inl ha
      · exact Or.inr ⟨_, List.mem_cons_self, hexits⟩
    · exact Or.inr ⟨x, List.mem_cons_of_mem _ hx, hexits⟩

end Progress

namespace Machine

open Progress

variable {m : Machine} {s s' : Snapshot} {event : Event} {xs : List Step} {i : Invocation}
  {a : ResolvedAction}

/-- A snapshot asks for the stop of an invocation only if a microstep behind it exits the owner. -/
theorem Moves.exits_of_stop (h : m.Moves s event xs s') (hreserves : m.chart.reserves i = true)
    (ha : a ∈ s'.actions) (hduty : a.duty = .stop i.id) :
  ∃ x ∈ xs, x.Exits m.chart i.owner
  := by
  cases h with
  | rest => cases ha
  | react hsettles =>
    rcases hsettles.exits_of_stop hreserves ha hduty with ha | ⟨x, hx, hexits⟩
    · rcases Step.exits_of_stop hreserves ⟨event, false, rfl⟩ ha hduty with ha | hexits
      · cases ha
      · exact ⟨_, List.mem_cons_self, hexits⟩
    · exact ⟨x, List.mem_cons_of_mem _ hx, hexits⟩

end Machine

end Statechart
