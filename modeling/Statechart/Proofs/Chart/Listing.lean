import Mathlib.Data.List.Forall2
import Statechart.Proofs.Chart.Path
import Statechart.Proofs.Document.Listing

/-!
# Candidates of nodes

What becomes of the candidates that are passed to a state under construction (`listed_of_build`):
in the compiled machine the node of the state has a transition for each, and the JSON form of the
machine lists them, but for those with the delay of a later one.
-/

namespace Statechart.Chart

open Document (Declaration State Key Built Leads Call)

/-- The event of the transitions that candidates for a key of a state are compiled to. -/
def eventName (state : String) : Key → String
  | .event name => name
  | .always => ""
  | .delay millis => afterEvent (toString millis) state
  | .completion => Event.doneState ++ state

/-- Whether a candidate of the state at a place is compiled to a transition, but for its order. -/
def Compiles (ps : List Place) (n : Nat) (p : Place) (e : Key × Document.Transition)
    (t : Transition) : Prop :=
  transitionOf ps n p.node (eventName p.node.id e.1) e.2 = .ok { t with order := 0 }

/-- What becomes of the candidates that are passed to a state, in its node and in its JSON form.
Each is compiled to a transition of the node, in the order of the calls for each key, and the other
transitions of the node are those of its invocations.  The JSON form lists under each key the
candidates that it shows, which are all of them, but only the last one for each delay.  So all are
listed, and as many as were passed, if and only if no delay is passed twice. -/
structure Listed (ps : List Place) (n : Nat) (p : Place) (node : Node) (j : Json)
    (es : List (Key × Document.Transition)) : Prop where
  compiled : ∃ declared compiled invoked,
    (∀ key, declared.filter (fun e => e.1 = key) = es.filter (fun e => e.1 = key)) ∧
    List.Forall₂ (Compiles ps n p) declared compiled ∧ compiled.length = es.length ∧
    node.transitions = compiled ++ invoked ∧
    ∀ t ∈ invoked, ∃ event, ∃ d ∈ p.own.invoke.flatMap (fun i => i.onDone ++ i.onError),
      transitionOf ps n p.node event d = .ok { t with order := 0 }
  listed : ∀ key, j.at? key.path = Document.listing (Document.shown es key)
  count : Document.candidateCount j + (Document.delays es).length =
    es.length + (Document.delays es).dedup.length
  listed_iff : (∀ key, j.at? key.path = Document.listing (Document.candidates es key)) ↔
    (Document.delays es).Nodup
  count_iff : Document.candidateCount j = es.length ↔ (Document.delays es).Nodup

/-! ### Places -/

variable {s sub : State} {keys : List String} {p : Place} {n : Nat} {document : Document.Machine}
  {chart : Chart}

theorem exists_layOut_of_mem (machine : String) (above start : Nat) (path : List String)
    {key : String} {child : State} {children : List (String × State)}
    (h : (key, child) ∈ children) :
  ∃ start', ∀ p ∈ layOut machine start' (path ++ [key]) (some above) child,
    p ∈ layOutAll machine start path above children
  := by
  induction children generalizing start with
  | nil => cases h
  | cons e rest ih =>
    rw [layOutAll]
    rcases List.mem_cons.mp h with rfl | h
    · exact ⟨start, fun p hp => List.mem_append_left _ hp⟩
    · obtain ⟨start', hstart'⟩ := ih (start + e.2.size) h
      exact ⟨start', fun p hp => List.mem_append_right _ (hstart' p hp)⟩

/-- A state to which keys lead has a place, whose path are the keys. -/
theorem exists_place_of_leads (h : Leads s keys sub) (machine : String) (start : Nat)
    (path : List String) (parent : Option Nat) :
  ∃ p ∈ layOut machine start path parent s, p.own = sub.own ∧ p.node.path = path ++ keys
  := by
  induction h generalizing start path parent with
  | @here s =>
    cases s with
    | node own children =>
      exact ⟨_, List.mem_cons_self, rfl, (List.append_nil path).symm⟩
  | @step own before key child after keys s _ _ ih =>
    have hmem : (key, child) ∈ before ++ (key, child) :: after :=
      List.mem_append_right _ List.mem_cons_self
    obtain ⟨start', hall⟩ := exists_layOut_of_mem machine start (start + 1) path hmem
    obtain ⟨p, hp, hown, hpath⟩ := ih start' (path ++ [key]) (some start)
    rw [List.append_assoc] at hpath
    exact ⟨p, List.mem_cons_of_mem _ (hall p hp), hown, hpath⟩

/-! ### Transitions -/

theorem forall₂_flatten {α β γ : Type} {R : β → γ → Prop} {f : α → List β} {xs : List α}
    {yss : List (List γ)} (h : List.Forall₂ (fun x ys => List.Forall₂ R (f x) ys) xs yss) :
  List.Forall₂ R (xs.flatMap f) yss.flatten
  := by
  induction h with
  | nil => exact .nil
  | cons h _ ih => exact List.rel_append h ih

theorem order_of_transitionOf {ps : List Place} {node : Node} {event : String}
    {d : Document.Transition} {t : Transition} (h : transitionOf ps n node event d = .ok t) :
  t.order = 0
  := by
  rw [transitionOf] at h
  obtain ⟨targets, -, h⟩ := Outcome.bind_eq_ok.mp h
  split at h
  · cases h
    rfl
  · split at h
    · cases h
      rfl
    · cases h

/-- A state that has been built has a transition for each candidate that it declares, before those
of its invocations. -/
theorem exists_compiled {ps : List Place} {taken : List String} {ts : List Transition}
    {es : List (Key × Document.Transition)} (hbuilt : Built p.own es)
    (h : transitionsOf ps n taken p = .ok ts) :
  ∃ compiled invoked, ts = compiled ++ invoked ∧
    List.Forall₂
      (fun e t => transitionOf ps n p.node (eventName p.node.id e.1) e.2 = .ok t)
      (Document.declared p.own es) compiled ∧
    ∀ t ∈ invoked, ∃ event, ∃ d ∈ p.own.invoke.flatMap (fun i => i.onDone ++ i.onError),
      transitionOf ps n p.node event d = .ok t
  := by
  rw [transitionsOf] at h
  obtain ⟨on, hon, h⟩ := Outcome.bind_eq_ok.mp h
  obtain ⟨after, hafter, h⟩ := Outcome.bind_eq_ok.mp h
  obtain ⟨always, halways, h⟩ := Outcome.bind_eq_ok.mp h
  obtain ⟨done, hdone, h⟩ := Outcome.bind_eq_ok.mp h
  obtain ⟨invoked, hinvoked, h⟩ := Outcome.bind_eq_ok.mp h
  cases h
  refine ⟨on.flatten ++ after.flatten ++ always ++ done, invoked, rfl, ?_,
    fun t ht => exists_of_mem_invokeTransitions hinvoked ht⟩
  have hevents : List.Forall₂
      (fun e t => transitionOf ps n p.node (eventName p.node.id e.1) e.2 = .ok t)
      (p.own.on.flatMap (fun e => e.2.map (fun t => (Key.event e.1, t)))) on.flatten := by
    apply forall₂_flatten
    apply (Outcome.forall₂_of_mapM_eq_ok hon).imp
    rintro ⟨event, candidates⟩ us hus
    dsimp only at hus
    split at hus
    · cases hus
    · rw [List.forall₂_map_left_iff]
      exact Outcome.forall₂_of_mapM_eq_ok hus
  have hdelays : List.Forall₂
      (fun e t => transitionOf ps n p.node (eventName p.node.id e.1) e.2 = .ok t)
      ((Document.delayed es).map (fun d => (Key.delay d.1, d.2))) after.flatten := by
    rw [hbuilt.after] at hafter
    have hall := Outcome.forall₂_of_mapM_eq_ok hafter
    rw [List.forall₂_map_left_iff] at hall
    rw [← List.flatMap_singleton' (Document.delayed es), List.map_flatMap]
    apply forall₂_flatten
    apply hall.imp
    intro d us hus
    exact Outcome.forall₂_of_mapM_eq_ok hus
  have hrest : ∀ (key : Key) {candidates : List Document.Transition} {us : List Transition},
      candidates.mapM (transitionOf ps n p.node (eventName p.node.id key)) = .ok us →
      List.Forall₂ (fun e t => transitionOf ps n p.node (eventName p.node.id e.1) e.2 = .ok t)
        (candidates.map (fun t => (key, t))) us := by
    intro key candidates us hus
    rw [List.forall₂_map_left_iff]
    exact Outcome.forall₂_of_mapM_eq_ok hus
  exact List.rel_append
    (List.rel_append (List.rel_append hevents hdelays) (hrest .always halways))
    (hrest .completion hdone)

theorem numbered_append (order : Nat) (ts us : List Transition) :
  numbered order (ts ++ us) = numbered order ts ++ numbered (order + ts.length) us
  := by
  rw [numbered, List.zipIdx_append, List.map_append, numbered, numbered, Nat.zero_add,
    List.zipIdx_eq_map_add (l := us) (i := ts.length), List.map_map]
  congr 1
  apply List.map_congr_left
  rintro ⟨t, i⟩ -
  simp only [Function.comp_apply, Nat.add_assoc]

/-- Numbering keeps what holds of transitions whatever their orders are. -/
theorem forall₂_numbered {α : Type} {R R' : α → Transition → Prop} {xs : List α}
    {ts : List Transition} (h : List.Forall₂ R xs ts)
    (hR : ∀ x t order, R x t → R' x { t with order }) (order : Nat) :
  List.Forall₂ R' xs (numbered order ts)
  := by
  rw [numbered, List.forall₂_map_right_iff]
  generalize 0 = i
  induction h generalizing i with
  | nil => exact .nil
  | cons h _ ih =>
    rw [List.zipIdx_cons]
    exact .cons (hR _ _ _ h) (ih (i + 1))

/-! ### Nodes -/

/-- Every place of a document has a node, with the path of the place. -/
theorem exists_node_of_place (h : ofDocument document = .ok chart)
    (hp : (places document)[n]? = some p) :
  ∃ node, chart.node? n = some node ∧ node.path = p.node.path
  := by
  have hpaths := congrArg (·[n]?)
    (map_of_ofDocument (f := Node.path) (fun hlinked => (named_of_linked hlinked).2.2) h)
  simp only [List.getElem?_map, hp, Option.map_some] at hpaths
  exact Option.map_eq_some_iff.mp hpaths

/-- The node of a state that has been built has a transition for each candidate that the state
declares, before those of its invocations. -/
theorem exists_transitions {order : Nat} {ps : List Place} {taken : List String} {node : Node}
    {es : List (Key × Document.Transition)} (hbuilt : Built p.own es)
    (h : LinkedFrom ps n order taken p node) :
  ∃ compiled invoked, node.transitions = compiled ++ invoked ∧
    List.Forall₂ (Compiles ps n p) (Document.declared p.own es) compiled ∧
    ∀ t ∈ invoked, ∃ event, ∃ d ∈ p.own.invoke.flatMap (fun i => i.onDone ++ i.onError),
      transitionOf ps n p.node event d = .ok { t with order := 0 }
  := by
  obtain ⟨ts, hts, htransitions⟩ := h.transitions
  obtain ⟨compiled, invoked, rfl, hcompiled, hinvoked⟩ := exists_compiled hbuilt hts
  -- what a candidate is compiled to has no order yet
  have hunnumbered : ∀ {event d t} (order : Nat), transitionOf ps n p.node event d = .ok t →
      transitionOf ps n p.node event d = .ok { { t with order } with order := 0 } := by
    intro event d t order ht
    rw [ht, ← order_of_transitionOf ht]
  rw [numbered_append] at htransitions
  refine ⟨_, _, htransitions, ?_, ?_⟩
  · exact forall₂_numbered hcompiled (fun e t order ht => hunnumbered order ht) order
  · intro t ht
    obtain ⟨u, hu, heq⟩ := exists_of_mem_numbered ht
    obtain ⟨event, d, hd, hof⟩ := hinvoked u hu
    exact ⟨event, d, hd, heq ▸ hunnumbered t.order hof⟩

/-- For every accepted machine and every state in it that calls have built, where no later sibling
on the way to it has the same key: the candidates that the calls passed are all compiled to
transitions of its node, and the JSON form lists all of them if and only if no delay is passed
twice. -/
theorem listed_of_build {calls : List Call} (h : ofDocument document = .ok chart)
    (hleads : Leads document.root keys (State.build calls)) :
  ∃ n p node j, (places document)[n]? = some p ∧ chart.node? n = some node ∧ node.path = keys ∧
    chart.toJson.at? (Document.statePath keys) = some j ∧
    Listed (places document) n p node j (Document.passed calls)
  := by
  have hbuilt := Document.built_build calls
  obtain ⟨p, hp, hown, hpath⟩ :=
    exists_place_of_leads hleads (document.root.own.id.getD defaultId) 0 [] none
  obtain ⟨n, hp⟩ := List.mem_iff_getElem?.mp hp
  replace hp : (places document)[n]? = some p := hp
  obtain ⟨node, hnode, hkeys⟩ := exists_node_of_place h hp
  obtain ⟨p', order, taken, hp', hlinked⟩ := exists_linkedFrom h hnode
  obtain rfl : p = p' := Option.some.inj (hp.symm.trans hp')
  obtain ⟨compiled, invoked, htransitions, hcompiled, hinvoked⟩ :=
    exists_transitions (hown ▸ hbuilt) hlinked
  obtain ⟨j, hj, hshows⟩ := hleads.exists_shows (Document.shows_machine document)
  have hlisted := Document.at?_of_shows hshows hbuilt
  have hdeclared := (hown ▸ hbuilt).filter_declared
  refine ⟨n, p, node, j, hp, hnode, hkeys.trans hpath, ?_, ?_⟩
  · rw [toJson, document_of_ofDocument h]
    exact hj
  constructor
  case compiled =>
    have hlength := (Document.perm_of_filter_eq hdeclared).length_eq
    exact ⟨_, compiled, invoked, hdeclared, hcompiled, hcompiled.length_eq.symm.trans hlength,
      htransitions, hinvoked⟩
  case listed => exact hlisted
  case count => exact Document.count_of_shows hshows hbuilt
  case listed_iff =>
    simp only [hlisted]
    exact Document.shown_iff _
  case count_iff => exact Document.count_iff_of_shows hshows hbuilt

/-- A machine whose first state is built by the given calls. -/
def building (calls : List Call) : Document.Machine where
  root := State.build
    [.child "a" (State.build calls), .child "b" .empty, .child "c" .empty]

theorem leads_building (calls : List Call) :
  Leads (building calls).root ["a"] (State.build calls)
  := by
  have hlast : "a" ∉ [("b", State.empty), ("c", State.empty)].map Prod.fst := by decide
  exact @Leads.step _ [] _ _ _ _ _ hlast .here

/-- Calls that pass candidates for each kind of key, and two of them for one event and for one
delay. -/
def mixing : List Call :=
  [.on "E" (.to "b"), .after 10 (.to "b"), .always (.to "b"), .on "E" (.to "c"),
    .after 10 (.to "c"), .onDone (.to "c")]

theorem listed_of_build_mixing :
  ∃ chart, ofDocument (building mixing) = .ok chart ∧
    Leads (building mixing).root ["a"] (State.build mixing) ∧
    ∃ n p node j, (places (building mixing))[n]? = some p ∧ chart.node? n = some node ∧
      node.path = ["a"] ∧ chart.toJson.at? ["states", "a"] = some j ∧
      Listed (places (building mixing)) n p node j (Document.passed mixing) ∧
      Document.candidateCount j = 5
  := by
  obtain ⟨chart, h, -⟩ := Outcome.exists_of_any (x := ofDocument (building mixing))
    (p := fun _ => true) (by decide +kernel)
  have hleads := leads_building mixing
  obtain ⟨n, p, node, j, hp, hnode, hpath, hj, hlisted⟩ := listed_of_build h hleads
  have hcount : Document.candidateCount j + 2 = 6 + 1 := hlisted.count
  exact ⟨chart, h, hleads, n, p, node, j, hp, hnode, hpath, hj, hlisted, by omega⟩

/-- Calls that pass two candidates for one delay. -/
def repeating : List Call :=
  [.after 10 (.to "b"), .after 10 (.to "c")]

/-- The node has both candidates, and the JSON form has the second one alone. -/
theorem not_listed_repeating :
  ∃ chart, ofDocument (building repeating) = .ok chart ∧
    Leads (building repeating).root ["a"] (State.build repeating) ∧
    ∃ node j, chart.node? 1 = some node ∧ node.path = ["a"] ∧ node.transitions.length = 2 ∧
      chart.toJson.at? ["states", "a"] = some j ∧ Document.candidateCount j = 1 ∧
      j.at? ["after", "10"] = Document.listing [.to "c"] ∧
      Document.candidates (Document.passed repeating) (.delay 10) = [.to "b", .to "c"] ∧
      j.at? ["after", "10"] ≠
        Document.listing (Document.candidates (Document.passed repeating) (.delay 10))
  := by
  obtain ⟨chart, h, hp⟩ := Outcome.exists_of_any (x := ofDocument (building repeating))
    (p := fun chart =>
      (chart.node? 1).any (fun node => node.path == ["a"] && node.transitions.length == 2))
    (by decide +kernel)
  obtain ⟨node, hnode, hp⟩ := (Option.any_eq_true _ _).mp hp
  rw [Bool.and_eq_true, beq_iff_eq, beq_iff_eq] at hp
  have hj : chart.toJson.at? ["states", "a"] =
      some (.obj [("after", .obj [("10", .arr [(Document.Transition.to "c").toJson])])]) := by
    rw [toJson, document_of_ofDocument h]
    rfl
  refine ⟨chart, h, leads_building repeating, node, _, hnode, hp.1, hp.2, hj, rfl, rfl, rfl, ?_⟩
  -- one candidate is listed, and two have been passed
  exact fun hcontra => absurd (congrArg Document.itemCount hcontra) (by decide +kernel)

end Statechart.Chart
