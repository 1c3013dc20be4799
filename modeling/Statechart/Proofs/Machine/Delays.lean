import Mathlib.Data.List.Nodup
import Statechart.Proofs.Machine.Bound
import Statechart.Proofs.Machine.Invocation
import Statechart.Proofs.Machine.Restart
import Statechart.Proofs.Machine.Seclusion

/-!
# Delayed transitions

A node sends itself the event of a delayed transition on entry, and cancels the send on exit.  If a
document declares nothing else under the id of the send, then neither does its chart
(`times_of_ofDocument`), and what the actions of a snapshot do last about the send tells what the
microsteps behind it do last to the node (`lastVisit_transition`).
-/

namespace Statechart

/-- What may happen to a node. -/
inductive Visit where
  | exit
  | enter
  deriving DecidableEq

namespace Action

/-- What an action stands for under the id of a delayed transition: the send is armed when the node
is entered, and cancelled when it is exited. -/
def visit? (id : String) : Action → Option Visit
  | .send _ _ _ (some other) => if other = id then some .enter else none
  | .cancel other => if other = id then some .exit else none
  | _ => none

/-- Whether an action uses the id of a delayed transition. -/
def usesAfter : Action → Bool
  | .send _ _ _ (some id) => Text.beginsWith Chart.afterLead id
  | .cancel id => Text.beginsWith Chart.afterLead id
  | _ => false

variable {action : Action} {id : String}

theorem visit?_of_not_usesAfter (h : action.usesAfter = false)
    (hid : Text.beginsWith Chart.afterLead id = true) :
  action.visit? id = none
  := by
  have hne : ∀ other, Text.beginsWith Chart.afterLead other = false → other ≠ id := by
    rintro other hother rfl
    rw [hid] at hother
    cases hother
  cases action with
  | send event delay target other =>
    cases other with
    | none => rfl
    | some other => exact if_neg (hne other h)
  | cancel other => exact if_neg (hne other h)
  | _ => rfl

end Action

namespace Chart

open Document (Declaration)

/-- The actions that a state declares. -/
def declaredActions (own : Declaration) : List Action :=
  own.entry ++ own.exit ++ (declaredTransitions own).flatMap Document.Transition.actions

/-- The ids of the delayed transitions of a place. -/
def Place.afterIds (p : Place) : List String :=
  p.own.after.map (fun e => afterEvent e.1 p.node.id)

/-- Whether a machine invokes nothing, its delayed transitions have different ids, and its own
actions use no such ids. -/
structure Paced (document : Document.Machine) : Prop where
  invoke : ∀ p ∈ places document, p.own.invoke.isEmpty = true
  actions : ∀ p ∈ places document, ∀ a ∈ declaredActions p.own, a.usesAfter = false
  nodup : ((places document).flatMap Place.afterIds).Nodup

/-- Whether the send of an id is armed on the entry of a node, to be held back for a delay, and is
cancelled on its exit, and a chart does nothing else about it. -/
structure Times (chart : Chart) (imps : Implementations) (k : Nat) (id : String) (delay : Nat) :
    Prop where
  invocation : ∀ other, chart.invocation? other = none
  lead : Text.beginsWith afterLead id = true
  entry : ∀ n, (chart.entryActions n).filterMap (Action.visit? id) =
    if n = k then [.enter] else []
  exit : ∀ n, (chart.exitActions n).filterMap (Action.visit? id) = if n = k then [.exit] else []
  transition : ∀ n, ∀ t ∈ chart.transitions n, ∀ a ∈ t.actions, a.visit? id = none
  armed : ∀ n, ∀ a ∈ chart.entryActions n, a.visit? id = some .enter → ∀ context trigger,
    Collection.outcome chart imps a context trigger =
      .ok (.duty (.send ⟨.bare id, .myself, some delay, some id⟩))

variable {document : Document.Machine} {chart : Chart} {imps : Implementations} {p q : Place}
  {k n : Nat} {id key : String} {ts : List Document.Transition} {delay : Nat}

/-! ### Ids of delayed transitions -/

/-- An id belongs to one place only. -/
theorem Paced.index_eq (h : Paced document) (hp : (places document)[k]? = some p)
    (hq : (places document)[n]? = some q) (hid : id ∈ p.afterIds) (hid' : id ∈ q.afterIds) :
  n = k
  := by
  obtain ⟨hk, rfl⟩ := List.getElem?_eq_some_iff.mp hp
  obtain ⟨hn, rfl⟩ := List.getElem?_eq_some_iff.mp hq
  have hpairwise := List.pairwise_iff_getElem.mp (List.nodup_flatMap.mp h.nodup).2
  rcases Nat.lt_trichotomy n k with hlt | heq | hlt
  · exact absurd hid (hpairwise n k hn hk hlt hid')
  · exact heq
  · exact absurd hid' (hpairwise k n hk hn hlt hid)

/-- The members of a list that equal one of its members are that member, once. -/
theorem filterMap_eq_of_nodup {α β : Type} [DecidableEq α] {l : List α} (h : l.Nodup) (x : α)
    (y : β) :
  l.filterMap (fun z => if z = x then some y else none) = if x ∈ l then [y] else []
  := by
  induction l with
  | nil => rfl
  | cons z l ih =>
    obtain ⟨hz, hl⟩ := List.nodup_cons.mp h
    rw [List.filterMap_cons, ih hl]
    by_cases hx : z = x
    · subst hx
      simp [hz]
    · simp [hx, Ne.symm hx]

/-! ### Nodes -/

/-- What is listed under a node of a compiled chart is listed under a node that is linked from
its place. -/
theorem exists_linkedFrom_of_mem {α : Type} {f : Node → List α} {x : α}
    (h : ofDocument document = .ok chart) (hx : x ∈ ((chart.node? n).map f).getD []) :
  ∃ node p order taken, chart.node? n = some node ∧ x ∈ f node ∧
    (places document)[n]? = some p ∧ LinkedFrom (places document) n order taken p node
  := by
  cases hnode : chart.node? n with
  | none =>
    rw [hnode] at hx
    cases hx
  | some node =>
    rw [hnode] at hx
    obtain ⟨p, order, taken, hp, hlinked⟩ := exists_linkedFrom h hnode
    exact ⟨node, p, order, taken, rfl, hx, hp, hlinked⟩

/-- The exit of a node cancels the send of each of its delayed transitions. -/
theorem cancel_mem_exitActions (h : ofDocument document = .ok chart)
    (hp : (places document)[k]? = some p) (hafter : (key, ts) ∈ p.own.after) :
  .cancel (afterEvent key p.node.id) ∈ chart.exitActions k
  := by
  have hlt := (List.getElem?_eq_some_iff.mp hp).1
  rw [← (exists_links h).1] at hlt
  have hnode : chart.node? k = some chart.nodes[k] := List.getElem?_eq_getElem hlt
  obtain ⟨q, order, taken, hq, hlinked⟩ := exists_linkedFrom h hnode
  rw [hp, Option.some.injEq] at hq
  subst hq
  rw [exitActions, hnode, Option.map_some, Option.getD_some, hlinked.exit]
  apply List.mem_append_left
  apply List.mem_append_right
  exact List.mem_map.mpr ⟨key, List.mem_map.mpr ⟨_, hafter, rfl⟩, rfl⟩

section

variable {order : Nat} {taken : List String} {node : Node}

theorem Paced.invocations_eq_nil (h : Paced document) (hp : (places document)[n]? = some p)
    (hnode : LinkedFrom (places document) n order taken p node) :
  node.invocations = []
  := by
  rw [hnode.invocations, List.isEmpty_iff.mp (h.invoke p (List.mem_of_getElem? hp))]
  rfl

/-- The actions of a node are those that its state declares, and those of its delayed
transitions. -/
theorem Paced.actions_eq (h : Paced document) (hp : (places document)[n]? = some p)
    (hnode : LinkedFrom (places document) n order taken p node) :
  node.entry = p.own.entry ++ p.own.after.map (fun e => armDelay p.node.id e.1) ∧
    node.exit = p.own.exit ++ p.afterIds.map Action.cancel
  := by
  obtain ⟨hentry, hexit⟩ := actions_of_mem_layOut _ (List.mem_of_getElem? hp)
  rw [hnode.entry, hnode.exit, h.invocations_eq_nil hp hnode, hentry, hexit]
  simp [Place.afterIds]

/-- What a state declares does nothing about the send of a delayed transition. -/
theorem Paced.filterMap_visit? (h : Paced document) (hp : p ∈ places document)
    (hid : Text.beginsWith afterLead id = true) {actions : List Action}
    (hactions : ∀ a ∈ actions, a ∈ declaredActions p.own) :
  actions.filterMap (Action.visit? id) = []
  := by
  rw [List.filterMap_eq_nil_iff]
  intro a ha
  exact Action.visit?_of_not_usesAfter (h.actions p hp a (hactions a ha)) hid

/-- An id stands once for its own place, and for no other one. -/
theorem Paced.filterMap_afterIds (h : Paced document) (hp : (places document)[k]? = some p)
    (hq : (places document)[n]? = some q) (hid : id ∈ p.afterIds) (visit : Visit) :
  q.afterIds.filterMap (fun other => if other = id then some visit else none) =
    if n = k then [visit] else []
  := by
  have hnodup := (List.nodup_flatMap.mp h.nodup).1 q (List.mem_of_getElem? hq)
  rw [filterMap_eq_of_nodup hnodup]
  refine if_congr ⟨h.index_eq hp hq hid, ?_⟩ rfl rfl
  rintro rfl
  rw [hp, Option.some.injEq] at hq
  subst hq
  exact hid

theorem Paced.filterMap_entry (h : Paced document) (hp : (places document)[k]? = some p)
    (hid : id ∈ p.afterIds) (hlead : Text.beginsWith afterLead id = true)
    (hq : (places document)[n]? = some q)
    (hnode : LinkedFrom (places document) n order taken q node) :
  node.entry.filterMap (Action.visit? id) = if n = k then [.enter] else []
  := by
  have hown : q.own.entry.filterMap (Action.visit? id) = [] :=
    h.filterMap_visit? (List.mem_of_getElem? hq) hlead
      (fun a ha => List.mem_append_left _ (List.mem_append_left _ ha))
  rw [(h.actions_eq hq hnode).1, List.filterMap_append, hown, List.nil_append,
    ← h.filterMap_afterIds hp hq hid, Place.afterIds, List.filterMap_map, List.filterMap_map]
  rfl

theorem Paced.filterMap_exit (h : Paced document) (hp : (places document)[k]? = some p)
    (hid : id ∈ p.afterIds) (hlead : Text.beginsWith afterLead id = true)
    (hq : (places document)[n]? = some q)
    (hnode : LinkedFrom (places document) n order taken q node) :
  node.exit.filterMap (Action.visit? id) = if n = k then [.exit] else []
  := by
  have hown : q.own.exit.filterMap (Action.visit? id) = [] :=
    h.filterMap_visit? (List.mem_of_getElem? hq) hlead
      (fun a ha => List.mem_append_left _ (List.mem_append_right _ ha))
  rw [(h.actions_eq hq hnode).2, List.filterMap_append, hown, List.nil_append,
    ← h.filterMap_afterIds hp hq hid, List.filterMap_map]
  rfl

/-- An entry action that arms the send of a delayed transition holds its event back for the delay. -/
theorem Paced.outcome_eq (h : Paced document) (hp : (places document)[k]? = some p)
    (hafter : (key, ts) ∈ p.own.after)
    (hdelay : ∀ context trigger,
      Collection.delayOf imps (some (Delay.ofKey key)) context trigger = .ok (some delay))
    (hq : (places document)[n]? = some q)
    (hnode : LinkedFrom (places document) n order taken q node) {action : Action}
    (haction : action ∈ node.entry)
    (hvisit : action.visit? (afterEvent key p.node.id) = some .enter) (context : Json)
    (trigger : Event) :
  Collection.outcome chart imps action context trigger =
    .ok (.duty (.send ⟨.bare (afterEvent key p.node.id), .myself, some delay,
      some (afterEvent key p.node.id)⟩))
  := by
  have hid : afterEvent key p.node.id ∈ p.afterIds := List.mem_map.mpr ⟨_, hafter, rfl⟩
  have hlead := beginsWith_afterEvent key p.node.id
  rw [(h.actions_eq hq hnode).1, List.mem_append] at haction
  rcases haction with hown | harms
  · have hdeclared : action ∈ declaredActions q.own :=
      List.mem_append_left _ (List.mem_append_left _ hown)
    have huses := h.actions q (List.mem_of_getElem? hq) action hdeclared
    rw [Action.visit?_of_not_usesAfter huses hlead] at hvisit
    cases hvisit
  · obtain ⟨e, he, rfl⟩ := List.mem_map.mp harms
    have hsame : afterEvent e.1 q.node.id = afterEvent key p.node.id := by
      by_contra hne
      rw [show (armDelay q.node.id e.1).visit? _ = none from if_neg hne] at hvisit
      cases hvisit
    have hq' : afterEvent key p.node.id ∈ q.afterIds := List.mem_map.mpr ⟨e, he, hsame⟩
    -- the place is the same, and so is the entry
    obtain rfl := h.index_eq hp hq hid hq'
    rw [hp, Option.some.injEq] at hq
    subst hq
    have hnodup := (List.nodup_flatMap.mp h.nodup).1 p (List.mem_of_getElem? hp)
    obtain rfl := List.inj_on_of_nodup_map hnodup he hafter hsame
    simp [armDelay, Collection.outcome, Collection.sendOf, EventExpression.eval, hdelay, bind,
      Except.bind, Except.map, Destination.ofTarget]

end

/-- What holds of the actions of all linked nodes holds of those of the chart. -/
theorem filterMap_actions (h : ofDocument document = .ok chart)
    (hp : (places document)[k]? = some p) {f : Node → List Action} {visit : Visit}
    (hf : ∀ n node q order taken, (places document)[n]? = some q →
      LinkedFrom (places document) n order taken q node →
      (f node).filterMap (Action.visit? id) = if n = k then [visit] else []) (n : Nat) :
  (((chart.node? n).map f).getD []).filterMap (Action.visit? id) = if n = k then [visit] else []
  := by
  cases hnode : chart.node? n with
  | none =>
    have hne : n ≠ k := by
      rintro rfl
      have hlt := (List.getElem?_eq_some_iff.mp hp).1
      rw [← (exists_links h).1] at hlt
      exact absurd (List.getElem?_eq_none_iff.mp hnode) (Nat.not_le_of_lt hlt)
    rw [if_neg hne]
    rfl
  | some node =>
    obtain ⟨q, order, taken, hq, hlinked⟩ := exists_linkedFrom h hnode
    exact hf n node q order taken hq hlinked

/-- The chart of a machine that invokes nothing has no invocations. -/
theorem invocation?_eq_none (h : ofDocument document = .ok chart) (hpaced : Paced document)
    (other : String) :
  chart.invocation? other = none
  := by
  rw [invocation?, List.find?_eq_none]
  intro i hi
  obtain ⟨node, hnode, hi⟩ := List.mem_flatMap.mp hi
  obtain ⟨n, hn⟩ := List.mem_iff_getElem?.mp hnode
  obtain ⟨q, order, taken, hq, hlinked⟩ := exists_linkedFrom h hn
  rw [hpaced.invocations_eq_nil hq hlinked] at hi
  cases hi

/-- The chart of a machine whose delayed transitions have different ids, which its own actions do
not use, does about each send only what its delayed transition asks for. -/
theorem times_of_ofDocument (h : ofDocument document = .ok chart) (hpaced : Paced document)
    (hp : (places document)[k]? = some p) (hafter : (key, ts) ∈ p.own.after)
    (hdelay : ∀ context trigger,
      Collection.delayOf imps (some (Delay.ofKey key)) context trigger = .ok (some delay)) :
  chart.Times imps k (afterEvent key p.node.id) delay
  := by
  have hid : afterEvent key p.node.id ∈ p.afterIds := List.mem_map.mpr ⟨_, hafter, rfl⟩
  have hlead := beginsWith_afterEvent key p.node.id
  constructor
  case invocation => exact invocation?_eq_none h hpaced
  case lead => exact hlead
  case entry =>
    exact filterMap_actions h hp
      (fun _ _ _ _ _ hq hlinked => hpaced.filterMap_entry hp hid hlead hq hlinked)
  case exit =>
    exact filterMap_actions h hp
      (fun _ _ _ _ _ hq hlinked => hpaced.filterMap_exit hp hid hlead hq hlinked)
  case transition =>
    intro n t ht a ha
    obtain ⟨node, q, order, taken, -, ht, hq, hlinked⟩ := exists_linkedFrom_of_mem h ht
    obtain ⟨us, hus, heq⟩ := hlinked.transitions
    rw [heq] at ht
    obtain ⟨u, hu, hsame⟩ := exists_of_mem_numbered ht
    obtain ⟨event, d, hd, hof⟩ := exists_of_mem_transitionsOf hus hu
    rw [hsame] at ha
    rw [show u.actions = d.actions from actions_of_transitionOf hof] at ha
    apply Action.visit?_of_not_usesAfter _ hlead
    apply hpaced.actions q (List.mem_of_getElem? hq)
    exact List.mem_append_right _ (List.mem_flatMap.mpr ⟨d, hd, ha⟩)
  case armed =>
    intro n a ha hvisit context trigger
    obtain ⟨node, q, order, taken, -, ha, hq, hlinked⟩ := exists_linkedFrom_of_mem h ha
    exact hpaced.outcome_eq hp hafter hdelay hq hlinked ha hvisit context trigger

end Chart

/-! ### Collected actions -/

/-- What a duty stands for under the id of a delayed transition. -/
def Duty.visit? (id : String) : Duty → Option Visit
  | .send dispatched => if dispatched.id = some id then some .enter else none
  | .cancel other => if other = id then some .exit else none
  | _ => none

namespace ResolvedAction

/-- What an action of a snapshot stands for under the id of a delayed transition. -/
def visit? (id : String) (a : ResolvedAction) : Option Visit :=
  a.duty.visit? id

/-- Whether an action that arms the send of a delayed transition sends the machine its event after
the delay. -/
def Arms (id : String) (delay : Nat) (a : ResolvedAction) : Prop :=
  a.visit? id = some .enter → a.duty = .send ⟨.bare id, .myself, some delay, some id⟩

end ResolvedAction

namespace Collection

variable {chart : Chart} {imps : Implementations} {trigger : Event} {c : Collection}
  {action : Action} {actions : List Action} {id : String} {delay : Nat} {context : Json}

/-- An action and its duty stand for the same. -/
theorem visit?_of_outcome {duty : Duty}
    (h : outcome chart imps action context trigger = .ok (.duty duty)) :
  duty.visit? id = action.visit? id
  := by
  cases action with
  | named name =>
    cases h
    rw [namedDuty]
    split <;> rfl
  | send event held target other =>
    obtain ⟨send, hsend, h⟩ := Outcome.map_eq_ok.mp h
    cases h
    rw [sendOf] at hsend
    obtain ⟨_, -, hsend⟩ := Outcome.bind_eq_ok.mp hsend
    obtain ⟨_, -, hsend⟩ := Outcome.bind_eq_ok.mp hsend
    cases hsend
    cases other with
    | none => rfl
    | some other => simp only [Duty.visit?, Action.visit?, Option.some.injEq]
  | sendParent event =>
    obtain ⟨send, hsend, h⟩ := Outcome.map_eq_ok.mp h
    cases h
    rw [sendOf] at hsend
    obtain ⟨_, -, hsend⟩ := Outcome.bind_eq_ok.mp hsend
    obtain ⟨_, -, hsend⟩ := Outcome.bind_eq_ok.mp hsend
    cases hsend
    rfl
  | start other =>
    obtain ⟨duty, hstart, h⟩ := Outcome.map_eq_ok.mp h
    cases h
    rw [startOf] at hstart
    split at hstart
    · cases hstart
      rfl
    · split at hstart
      · cases hstart
        rfl
      · obtain ⟨_, -, hstart⟩ := Outcome.map_eq_ok.mp hstart
        cases hstart
        rfl
  | raise event =>
    obtain ⟨_, -, h⟩ := Outcome.map_eq_ok.mp h
    cases h
  | assign mapping =>
    obtain ⟨_, -, h⟩ := Outcome.map_eq_ok.mp h
    cases h
  | _ =>
    cases h
    rfl

/-- An action without a duty stands for nothing, unless it arms a send. -/
theorem visit?_of_not_duty (harmed : action.visit? id ≠ some .enter)
    (h : ∀ duty, outcome chart imps action context trigger ≠ .ok (.duty duty)) :
  action.visit? id = none
  := by
  cases action with
  | send event held target other =>
    cases other with
    | none => rfl
    | some other =>
      refine if_neg (fun hsame => harmed ?_)
      exact if_pos hsame
  | cancel other => exact absurd rfl (h _)
  | _ => rfl

/-- One more action adds what it stands for. -/
theorem exists_expand (harmed : action.visit? id = some .enter → ∀ context,
      outcome chart imps action context trigger =
        .ok (.duty (.send ⟨.bare id, .myself, some delay, some id⟩))) :
  ∃ added, (c.expand chart imps trigger action).actions = c.actions ++ added ∧
    added.filterMap (ResolvedAction.visit? id) = (action.visit? id).toList ∧
    ∀ a ∈ added, a.Arms id delay
  := by
  have hnone : (∀ duty, outcome chart imps action c.context trigger ≠ .ok (.duty duty)) →
      action.visit? id = none := by
    intro hduty
    exact visit?_of_not_duty (fun hvisit => hduty _ (harmed hvisit c.context)) hduty
  rw [expand]
  split
  · next next houtcome =>
    refine ⟨[], (List.append_nil _).symm, ?_, List.forall_mem_nil _⟩
    rw [hnone (by simp [houtcome])]
    rfl
  · next event houtcome =>
    refine ⟨[], (List.append_nil _).symm, ?_, List.forall_mem_nil _⟩
    rw [hnone (by simp [houtcome])]
    rfl
  · next duty houtcome =>
    refine ⟨[_], rfl, ?_, List.forall_mem_singleton.mpr ?_⟩
    · rw [← visit?_of_outcome houtcome]
      cases hvisit : duty.visit? id <;> simp [ResolvedAction.visit?, hvisit]
    · intro hvisit
      have hsame := harmed ((visit?_of_outcome houtcome).symm.trans hvisit) c.context
      rw [houtcome, Except.ok.injEq, Outcome.duty.injEq] at hsame
      exact hsame
  · next reason houtcome =>
    refine ⟨[_], rfl, ?_, List.forall_mem_singleton.mpr ?_⟩
    · rw [hnone (by simp [houtcome])]
      rfl
    · intro hvisit
      cases hvisit

/-- Further actions are collected behind those that there are, the cancellation of a send as such. -/
theorem exists_added (chart : Chart) (imps : Implementations) (trigger : Event) (c : Collection)
    (actions : List Action) :
  ∃ added, (c.collect chart imps trigger actions).actions = c.actions ++ added ∧
    ∀ id, .cancel id ∈ actions → ∃ a ∈ added, a.duty = .cancel id
  := by
  rw [collect]
  induction actions generalizing c with
  | nil => exact ⟨[], (List.append_nil _).symm, fun _ h => absurd h List.not_mem_nil⟩
  | cons action actions ih =>
    obtain ⟨others, hothers, hcancels⟩ := ih (c.expand chart imps trigger action)
    have hfirst : ∃ first, (c.expand chart imps trigger action).actions = c.actions ++ first ∧
        ∀ id, action = .cancel id → ∃ a ∈ first, a.duty = .cancel id := by
      cases action with
      | cancel id =>
        refine ⟨[⟨_, .cancel id, trigger⟩], rfl, ?_⟩
        rintro other heq
        cases heq
        exact ⟨_, List.mem_singleton_self _, rfl⟩
      | _ =>
        rw [expand]
        split
        · exact ⟨[], (List.append_nil _).symm, fun _ h => by cases h⟩
        · exact ⟨[], (List.append_nil _).symm, fun _ h => by cases h⟩
        · exact ⟨_, rfl, fun _ h => by cases h⟩
        · exact ⟨_, rfl, fun _ h => by cases h⟩
    obtain ⟨first, hactions, hcancel⟩ := hfirst
    refine ⟨first ++ others, ?_, ?_⟩
    · rw [List.foldl_cons, hothers, hactions, List.append_assoc]
    · intro id hmem
      rcases List.mem_cons.mp hmem with heq | hmem
      · obtain ⟨a, ha, hduty⟩ := hcancel id heq.symm
        exact ⟨a, List.mem_append_left _ ha, hduty⟩
      · obtain ⟨a, ha, hduty⟩ := hcancels id hmem
        exact ⟨a, List.mem_append_right _ ha, hduty⟩

theorem getLast?_filterMap_cons {α β : Type} (f : α → Option β) (x : α) (l : List α) :
  ((x :: l).filterMap f).getLast? = (l.filterMap f).getLast?.or (f x)
  := by
  rw [← List.singleton_append, List.filterMap_append, List.getLast?_append]
  cases hx : f x <;> simp [hx]

/-- Whether a visit is the last one that collected actions stand for, none if they stand for none,
and every send among them is armed for the delay. -/
structure Tells (id : String) (delay : Nat) (actions : List ResolvedAction) (last : Option Visit) :
    Prop where
  last : (actions.filterMap (ResolvedAction.visit? id)).getLast? = last
  arms : ∀ a ∈ actions, a.Arms id delay

theorem Tells.nil :
  Tells id delay [] none
  := ⟨rfl, List.forall_mem_nil _⟩

theorem Tells.append {actions added : List ResolvedAction} {last next : Option Visit}
    (h : Tells id delay actions last) (hadded : Tells id delay added next) :
  Tells id delay (actions ++ added) (next.or last)
  := by
  constructor
  case last => rw [List.filterMap_append, List.getLast?_append, h.last, hadded.last]
  case arms => exact List.forall_mem_append.mpr ⟨h.arms, hadded.arms⟩

/-- The collected actions stand for what the actions stand for. -/
theorem exists_collect (harmed : ∀ action ∈ actions, action.visit? id = some .enter → ∀ context,
      outcome chart imps action context trigger =
        .ok (.duty (.send ⟨.bare id, .myself, some delay, some id⟩))) :
  ∃ added, (c.collect chart imps trigger actions).actions = c.actions ++ added ∧
    Tells id delay added (actions.filterMap (Action.visit? id)).getLast?
  := by
  rw [collect]
  induction actions generalizing c with
  | nil => exact ⟨[], (List.append_nil _).symm, .nil⟩
  | cons action actions ih =>
    obtain ⟨hfirst, hrest⟩ := List.forall_mem_cons.mp harmed
    obtain ⟨first, hactions, hvisits, harms⟩ := exists_expand (c := c) hfirst
    obtain ⟨others, hactions', hothers⟩ := ih (c := c.expand chart imps trigger action) hrest
    have hadded : Tells id delay first (action.visit? id) := by
      refine ⟨?_, harms⟩
      rw [hvisits]
      cases action.visit? id <;> rfl
    refine ⟨first ++ others, ?_, ?_⟩
    · rw [List.foldl_cons, hactions', hactions, List.append_assoc]
    · rw [getLast?_filterMap_cons]
      exact hadded.append hothers

end Collection

namespace Progress

open Collection (Tells)

variable {chart : Chart} {imps : Implementations} {event : Event} {p p' : Progress}
  {xs : List Step} {x : Step} {k : Nat} {id : String} {delay : Nat} {last : Option Visit}

/-- What a microstep does last to a node. -/
def Step.visit? (chart : Chart) (k : Nat) (x : Step) : Option Visit :=
  if k ∈ x.before.entering chart x.transitions then some .enter
  else if k ∈ x.before.exiting chart x.transitions then some .exit
  else none

/-- What microsteps do last to a node. -/
def lastVisit (chart : Chart) (k : Nat) (xs : List Step) : Option Visit :=
  (xs.filterMap (Step.visit? chart k)).getLast?

theorem lastVisit_cons (x : Step) (xs : List Step) :
  lastVisit chart k (x :: xs) = (lastVisit chart k xs).or (x.visit? chart k)
  := Collection.getLast?_filterMap_cons _ x xs

theorem getLast?_flatMap_ite (l : List Nat) (k : Nat) (visit : Visit) :
  (l.flatMap (fun n => if n = k then [visit] else [])).getLast? =
    if k ∈ l then some visit else none
  := by
  induction l with
  | nil => rfl
  | cons n l ih =>
    rw [List.flatMap_cons, List.getLast?_append, ih]
    by_cases hn : n = k
    · subst hn
      by_cases hmem : n ∈ l <;> simp [hmem]
    · simp [hn, Ne.symm hn]

/-- If the actions listed for one node stand for a visit, and those for all others for nothing, then
the actions listed for some nodes stand for the visit as soon as the one is among them. -/
theorem exists_collect_flatMap {f : Nat → List Action} {visit : Visit} (trigger : Event)
    (hvisits : ∀ n, (f n).filterMap (Action.visit? id) = if n = k then [visit] else [])
    (harmed : ∀ n, ∀ action ∈ f n, action.visit? id = some .enter → ∀ context,
      Collection.outcome chart imps action context trigger =
        .ok (.duty (.send ⟨.bare id, .myself, some delay, some id⟩)))
    (nodes : List Nat) (c : Collection) :
  ∃ added, (c.collect chart imps trigger (nodes.flatMap f)).actions = c.actions ++ added ∧
    Tells id delay added (if k ∈ nodes then some visit else none)
  := by
  have hlisted : ∀ action ∈ nodes.flatMap f, action.visit? id = some .enter → ∀ context,
      Collection.outcome chart imps action context trigger =
        .ok (.duty (.send ⟨.bare id, .myself, some delay, some id⟩)) := by
    intro action haction hvisit context
    obtain ⟨n, -, haction⟩ := List.mem_flatMap.mp haction
    exact harmed n action haction hvisit context
  obtain ⟨added, heq, htells⟩ := Collection.exists_collect (c := c) hlisted
  rw [List.filterMap_flatMap, funext hvisits, getLast?_flatMap_ite] at htells
  exact ⟨added, heq, htells⟩

/-- The exit actions of a node arm nothing. -/
theorem visit?_exitActions (h : chart.Times imps k id delay) (n : Nat) {action : Action}
    (haction : action ∈ chart.exitActions n) :
  action.visit? id ≠ some .enter
  := by
  intro hvisit
  have hmem := List.mem_filterMap.mpr ⟨action, haction, hvisit⟩
  rw [h.exit n] at hmem
  split at hmem
  · cases List.mem_singleton.mp hmem
  · cases hmem

/-- The actions of a microstep stand for what it does to the node. -/
theorem tells_after (h : chart.Times imps k id delay) (henabled : x.Enabled chart imps)
    (hbefore : Tells id delay x.before.collected.actions last) :
  Tells id delay (x.after chart imps).collected.actions ((x.visit? chart k).or last)
  := by
  have htransitions : ∀ action ∈ x.transitions.flatMap Transition.actions,
      action.visit? id = none := by
    obtain ⟨event, eventless, heq⟩ := henabled
    intro action haction
    obtain ⟨t, ht, haction⟩ := List.mem_flatMap.mp haction
    rw [heq, enabled] at ht
    obtain ⟨n, ht⟩ := Chart.exists_mem_transitions_of_mem_select ht
    exact h.transition n t ht action haction
  obtain ⟨exits, hexits, htells⟩ := exists_collect_flatMap x.trigger h.exit
    (fun n action haction hvisit => absurd hvisit (visit?_exitActions h n haction))
    (x.before.exiting chart x.transitions).reverse x.before.collected
  have hidle : ∀ action ∈ x.transitions.flatMap Transition.actions,
      action.visit? id = some .enter → ∀ context,
        Collection.outcome chart imps action context x.trigger =
          .ok (.duty (.send ⟨.bare id, .myself, some delay, some id⟩)) := by
    intro action haction hvisit
    rw [htransitions action haction] at hvisit
    cases hvisit
  obtain ⟨taken, htaken, htells'⟩ := Collection.exists_collect
    (c := x.before.collected.collect chart imps x.trigger
      ((x.before.exiting chart x.transitions).reverse.flatMap chart.exitActions)) hidle
  obtain ⟨entries, hentries, htells''⟩ := exists_collect_flatMap x.trigger h.entry
    (fun n action haction hvisit context => h.armed n action haction hvisit context x.trigger)
    (x.before.entering chart x.transitions)
    ((x.before.collected.collect chart imps x.trigger
      ((x.before.exiting chart x.transitions).reverse.flatMap chart.exitActions)).collect chart
        imps x.trigger (x.transitions.flatMap Transition.actions))
  rw [List.filterMap_eq_nil_iff.mpr htransitions] at htells'
  rw [actions_after, performed, Collection.collect_append, Collection.collect_append, hentries,
    htaken, hexits]
  have hall := ((hbefore.append htells).append htells').append htells''
  convert hall using 1
  rw [Step.visit?]
  simp only [List.mem_reverse]
  split
  · rfl
  · split <;> rfl

/-- A microstep that exits a node cancels the sends of its delayed transitions. -/
theorem Step.Exits.exists_cancel (h : x.Exits chart k) (imps : Implementations)
    (hcancel : .cancel id ∈ chart.exitActions k) :
  ∃ added, (x.after chart imps).collected.actions = x.before.collected.actions ++ added ∧
    ∃ a ∈ added, a.duty = .cancel id
  := by
  obtain ⟨added, hadded, hcancels⟩ := Collection.exists_added chart imps x.trigger
    x.before.collected (x.before.performed chart x.transitions)
  refine ⟨added, ?_, hcancels id ?_⟩
  · rw [actions_after, hadded]
  · apply List.mem_append_left
    apply List.mem_append_left
    exact List.mem_flatMap.mpr ⟨k, List.mem_reverse.mpr h, hcancel⟩

/-- What a resolution settles to begins with the actions that were collected before. -/
theorem Settles.actions_extend (h : Settles chart imps event p xs p') :
  p.collected.actions <+: p'.collected.actions
  := by
  apply h.preserves (P := fun q => p.collected.actions <+: q.collected.actions)
  · exact fun q queue hq => hq
  · intro x _ _ hx
    obtain ⟨added, hadded, -⟩ := Collection.exists_added chart imps x.trigger x.before.collected
      (x.before.performed chart x.transitions)
    refine hx.trans ?_
    rw [actions_after, hadded]
    exact List.prefix_append _ _
  · exact List.prefix_rfl

/-- A resolution cancels the sends of a node behind all actions that were collected before the
microstep that exits it. -/
theorem Settles.exists_cancel (h : Settles chart imps event p xs p') (hx : x ∈ xs)
    (hexits : x.Exits chart k) (hcancel : .cancel id ∈ chart.exitActions k) :
  ∃ added, p'.collected.actions = x.before.collected.actions ++ added ∧
    ∃ a ∈ added, a.duty = .cancel id
  := by
  induction h with
  | done hdone => cases hx
  | idle hdone hnone => cases hx
  | step hdone hnext hrest ih =>
    rcases List.mem_cons.mp hx with rfl | hx
    · obtain ⟨added, hadded, a, ha, hduty⟩ := hexits.exists_cancel imps hcancel
      obtain ⟨others, hothers⟩ := hrest.actions_extend
      refine ⟨added ++ others, ?_, a, List.mem_append_left _ ha, hduty⟩
      rw [← hothers, hadded, List.append_assoc]
    · exact ih hx

/-- What a resolution settles to tells what the microsteps do. -/
theorem Settles.tells (hsettles : Settles chart imps event p xs p')
    (h : chart.Times imps k id delay) (hp : Tells id delay p.collected.actions last) :
  Tells id delay p'.collected.actions ((lastVisit chart k xs).or last)
  := by
  induction hsettles generalizing last with
  | done hdone => exact hp
  | idle hdone hnone => exact hp
  | step hdone hnext hrest ih =>
    rw [lastVisit_cons, Option.or_assoc]
    exact ih (tells_after h (enabled_step hnext) hp)

end Progress

namespace Machine

open Collection (Tells)
open Progress

variable {m : Machine} {s s' : Snapshot} {event : Event} {persisted : Persisted} {k : Nat}
  {id : String} {delay : Nat}

theorem restarts_of_visit? {action : Action} (h : action.visit? id = some .enter)
    (hlead : Text.beginsWith Chart.afterLead id = true) :
  restarts action = true
  := by
  cases action with
  | send event held target other =>
    cases other with
    | none => cases h
    | some other =>
      have hsame : other = id := by
        by_contra hne
        rw [show Action.visit? id (.send event held target (some other)) = none from if_neg hne] at h
        cases h
      rw [hsame]
      exact hlead
  | cancel other =>
    rw [Action.visit?] at h
    split at h <;> cases h
  | _ => cases h

/-- What the reaction of a machine to an event does last to a node. -/
def reactionVisit (m : Machine) (k : Nat) (s : Snapshot) (event : Event) : Option Visit :=
  lastVisit m.chart k (m.microsteps s event)

/-- What the start of a machine does last to a node: the default configuration is entered, and the
first microsteps follow. -/
def initialVisit (m : Machine) (k : Nat) : Option Visit :=
  (lastVisit m.chart k m.firstMicrosteps).or
    (if k ∈ m.chart.addDefaults Chart.root [] then some .enter else none)

/-- A snapshot asks for the cancellation of the sends of a node that a microstep behind it exits. -/
theorem Moves.exists_cancel {xs : List Step} (h : m.Moves s event xs s') {x : Step} (hx : x ∈ xs)
    (hexits : x.Exits m.chart k) (hcancel : .cancel id ∈ m.chart.exitActions k) :
  ∃ a ∈ s'.actions, a.duty = .cancel id
  := by
  cases h with
  | rest => cases hx
  | react hsettles =>
    rcases List.mem_cons.mp hx with rfl | hx
    · obtain ⟨added, hadded, a, ha, hduty⟩ := hexits.exists_cancel m.implementations hcancel
      refine ⟨a, hsettles.actions_subset ?_, hduty⟩
      rw [hadded]
      exact List.mem_append_right _ ha
    · obtain ⟨added, hadded, a, ha, hduty⟩ := hsettles.exists_cancel hx hexits hcancel
      have hmem := List.mem_append_right x.before.collected.actions ha
      rw [← hadded] at hmem
      exact ⟨a, hmem, hduty⟩

/-- The actions of a snapshot stand for what the reaction does to the node. -/
theorem tells_transition (h : m.chart.Times m.implementations k id delay)
    (hs : m.transition s event = .ok s') :
  Tells id delay s'.actions (m.reactionVisit k s event)
  := by
  rw [reactionVisit]
  by_cases hrest : s.done = true ∨ (m.reaction s event).transitions = []
  · rw [transition_of_rest hrest] at hs
    cases hs
    rw [microsteps_of_rest hrest]
    exact .nil
  · cases hlimit : m.limit with
    | zero =>
      rw [not_or, Bool.not_eq_true] at hrest
      rw [transition_of_react hrest.1 hrest.2, hlimit] at hs
      cases hs
    | succ budget =>
      rw [transition_eq_settle hlimit hrest] at hs
      obtain ⟨p, hp, rfl⟩ := Outcome.map_eq_ok.mp hs
      rw [microsteps_of_react hlimit hrest, lastVisit_cons]
      have hfirst : Tells id delay
          ((m.reaction s event).after m.chart m.implementations).collected.actions
          (((m.reaction s event).visit? m.chart k).or none) :=
        tells_after h ⟨event, false, rfl⟩ .nil
      rw [Option.or_none] at hfirst
      exact (settles_settling hp).tells h hfirst

theorem tells_initial (h : m.chart.Times m.implementations k id delay) (hs : m.initial = .ok s) :
  Tells id delay s.actions (m.initialVisit k)
  := by
  have hentry : Tells id delay m.entry.collected.actions
      (if k ∈ m.chart.addDefaults Chart.root [] then some .enter else none) := by
    obtain ⟨added, hadded, htells⟩ := exists_collect_flatMap .init h.entry
      (fun n action haction hvisit context => h.armed n action haction hvisit context .init)
      (m.chart.addDefaults Chart.root []) { context := m.context }
    rw [entry, (collected_enter _ _).actions, hadded]
    exact htells
  cases hlimit : m.limit with
  | zero =>
    rw [initial, hlimit] at hs
    cases hs
  | succ budget =>
    rw [initial_eq_settle hlimit] at hs
    obtain ⟨p, hp, rfl⟩ := Outcome.map_eq_ok.mp hs
    rw [initialVisit, firstMicrosteps, hlimit]
    exact (settles_settling hp).tells h hentry

/-- The entry action that arms the send runs again when its node is restored. -/
theorem filterMap_restarts (h : m.chart.Times m.implementations k id delay) (n : Nat) :
  ((m.chart.entryActions n).filter restarts).filterMap (Action.visit? id) =
    if n = k then [.enter] else []
  := by
  rw [List.filterMap_filter, ← h.entry n]
  apply List.filterMap_congr
  intro action haction
  cases hvisit : action.visit? id with
  | none => rw [ite_self]
  | some visit =>
    have hmem := List.mem_filterMap.mpr ⟨action, haction, hvisit⟩
    rw [h.entry n] at hmem
    split at hmem
    · obtain rfl := List.mem_singleton.mp hmem
      rw [if_pos (restarts_of_visit? hvisit h.lead)]
    · cases hmem

theorem tells_restore (h : m.chart.Times m.implementations k id delay)
    (hs : m.restore persisted = .ok s) :
  Tells id delay s.actions (if k ∈ s.configuration then some .enter else none)
  := by
  rw [restore] at hs
  obtain ⟨configuration, hconfiguration, hs⟩ := Outcome.bind_eq_ok.mp hs
  cases hs
  obtain ⟨added, hadded, htells⟩ := exists_collect_flatMap .init
    (filterMap_restarts h)
    (fun n action haction hvisit context =>
      h.armed n action (List.mem_of_mem_filter haction) hvisit context .init)
    configuration { context := persisted.context }
  dsimp only
  rw [restarted_eq, hadded]
  exact htells

end Machine

end Statechart
