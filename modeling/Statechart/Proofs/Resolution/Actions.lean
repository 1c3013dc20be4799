import Statechart.Proofs.Resolution.Microstep

/-!
# Collected actions

A microstep collects the exit actions of the nodes that it exits, then the actions of its
transitions, then the entry actions of the nodes that it enters (`collected_microstep`).
-/

namespace Statechart

namespace Collection

variable {chart : Chart} {imps : Implementations} {trigger : Event} {c c' : Collection}

/-- Whether two collections differ in raised events alone. -/
structure Same (c c' : Collection) : Prop where
  context : c.context = c'.context
  actions : c.actions = c'.actions

theorem Same.trans {c'' : Collection} (h : Same c c') (h' : Same c' c'') :
  Same c c''
  := ⟨h.context.trans h'.context, h.actions.trans h'.actions⟩

/-- What an action adds does not depend on the raised events. -/
theorem Same.expand (h : Same c c') (action : Action) :
  Same (c.expand chart imps trigger action) (c'.expand chart imps trigger action)
  := by
  obtain ⟨hcontext, hactions⟩ := h
  rw [Collection.expand, Collection.expand, hcontext, hactions]
  split <;> exact ⟨rfl, rfl⟩

theorem Same.collect (h : Same c c') (actions : List Action) :
  Same (c.collect chart imps trigger actions) (c'.collect chart imps trigger actions)
  := by
  rw [Collection.collect, Collection.collect]
  induction actions generalizing c c' with
  | nil => exact h
  | cons action actions ih => exact ih (h.expand action)

theorem collect_append (c : Collection) (actions actions' : List Action) :
  c.collect chart imps trigger (actions ++ actions') =
    (c.collect chart imps trigger actions).collect chart imps trigger actions'
  := List.foldl_append

end Collection

namespace Chart

/-- The entry actions of a node. -/
def entryActions (chart : Chart) (n : Nat) : List Action :=
  ((chart.node? n).map Node.entry).getD []

/-- The exit actions of a node. -/
def exitActions (chart : Chart) (n : Nat) : List Action :=
  ((chart.node? n).map Node.exit).getD []

end Chart

namespace Progress

variable {chart : Chart} {imps : Implementations} {trigger : Event} {p : Progress}

/-- The actions of a microstep: those of the exited nodes, from the last in document order to
the first, those of the transitions, and those of the entered nodes in document order. -/
def performed (chart : Chart) (p : Progress) (ts : List Transition) : List Action :=
  (p.exiting chart ts).reverse.flatMap chart.exitActions ++ ts.flatMap Transition.actions ++
    (p.entering chart ts).flatMap chart.entryActions

theorem collected_foldl_leave (exited : List Nat) (p : Progress) :
  (exited.foldl (leave chart imps trigger) p).collected =
    p.collected.collect chart imps trigger (exited.flatMap chart.exitActions)
  := by
  induction exited generalizing p with
  | nil => rfl
  | cons n exited ih =>
    rw [List.foldl_cons, ih, List.flatMap_cons, Collection.collect_append]
    rfl

theorem collected_foldl_act (ts : List Transition) (p : Progress) :
  (ts.foldl (fun p t => p.act chart imps trigger t.actions) p).collected =
    p.collected.collect chart imps trigger (ts.flatMap Transition.actions)
  := by
  induction ts generalizing p with
  | nil => rfl
  | cons t ts ih =>
    rw [List.foldl_cons, ih, List.flatMap_cons, Collection.collect_append]
    rfl

theorem collected_complete (p : Progress) (parent : Nat) (data : Option Json) :
  Collection.Same (p.complete chart parent data).collected p.collected
  := by
  rw [complete]
  split
  · exact ⟨rfl, rfl⟩
  · dsimp only
    split
    · exact ⟨rfl, rfl⟩
    · split <;> exact ⟨rfl, rfl⟩

theorem collected_enterNode (p : Progress) (n : Nat) :
  Collection.Same (p.enterNode chart imps trigger n).collected
    (p.collected.collect chart imps trigger (chart.entryActions n))
  := by
  rw [enterNode]
  split
  · next data parent _ _ => apply collected_complete _ parent
  · exact ⟨rfl, rfl⟩

theorem collected_enter (p : Progress) (nodes : NodeSet) :
  Collection.Same (p.enter chart imps trigger nodes).collected
    (p.collected.collect chart imps trigger (nodes.flatMap chart.entryActions))
  := by
  have hnodes : ∀ p : Progress, Collection.Same
      (nodes.foldl (enterNode chart imps trigger) p).collected
      (p.collected.collect chart imps trigger (nodes.flatMap chart.entryActions)) := by
    induction nodes with
    | nil => exact fun p => ⟨rfl, rfl⟩
    | cons n nodes ih =>
      intro p
      rw [List.foldl_cons, List.flatMap_cons, Collection.collect_append]
      exact (ih _).trans ((collected_enterNode p n).collect _)
  exact ⟨(hnodes p).context, (hnodes p).actions⟩

/-- A microstep collects the actions of the nodes that it exits, of its transitions and of the
nodes that it enters. -/
theorem collected_microstep (p : Progress) (ts : List Transition) :
  Collection.Same (microstep chart imps ts trigger p).collected
    (p.collected.collect chart imps trigger (p.performed chart ts))
  := by
  rw [microstep]
  apply (collected_enter _ _).trans
  rw [collected_foldl_act, collected_foldl_leave, ← Collection.collect_append,
    ← Collection.collect_append, (configuration_foldl_act _ ts).2,
    (configuration_foldl_leave _ _).2, performed, List.append_assoc]
  exact ⟨rfl, rfl⟩

end Progress

end Statechart
