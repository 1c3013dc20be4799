import Mathlib.Data.List.Forall2
import Statechart.Chart.Compile
import Statechart.Proofs.Chart.Layout
import Statechart.Proofs.Outcome

/-!
# Compiled nodes

What a node of a compiled chart has from its place: parent and children stay, transitions
belong to the node and lead to nodes, and so do the defaults of a history node
(`Links`).  The orders of the transitions increase from node to node.
-/

namespace Statechart.Chart

open Document (Declaration State)

/-! ### Targets -/

variable {ps : List Place} {index : Nat} {n : Node}

/-- Whether parents and children of the places are places. -/
def Enclosed (ps : List Place) : Prop :=
  ∀ p ∈ ps, (∀ q, p.node.parent = some q → q < ps.length) ∧
    ∀ c ∈ p.node.children, c < ps.length

/-- A path that begins at a place ends at a place. -/
theorem lt_of_descend (henc : Enclosed ps) {keys : List String} {start t : Nat}
    (hs : start < ps.length)
    (h : keys.foldlM
      (fun at_ key => (ps[at_]?).bind (fun p => childNamed? ps p.node key)) start = some t) :
  t < ps.length
  := by
  induction keys generalizing start with
  | nil =>
    rw [List.foldlM_nil] at h
    cases h
    exact hs
  | cons key keys ih =>
    rw [List.foldlM_cons] at h
    obtain ⟨c, hc, h⟩ := Option.bind_eq_some_iff.mp h
    obtain ⟨p, hp, hc⟩ := Option.bind_eq_some_iff.mp hc
    apply ih _ h
    apply (henc p (List.mem_of_getElem? hp)).2
    apply List.mem_of_find?_eq_some hc

/-- A target leads to a place. -/
theorem lt_of_targetOf (henc : Enclosed ps) (hi : index < ps.length)
    (hparent : ∀ q, n.parent = some q → q < ps.length) {target : String} {t : Nat}
    (h : targetOf ps index n target = .ok t) :
  t < ps.length
  := by
  have hstart : n.parent.getD index < ps.length := by
    cases hq : n.parent with
    | none => exact hi
    | some q => apply hparent q hq
  rw [targetOf] at h
  split at h
  · next t' hfound =>
    cases h
    split at hfound
    · obtain ⟨hlt, -⟩ := List.findIdx?_eq_some_iff_findIdx_eq.mp hfound
      exact hlt
    · split at hfound
      · apply lt_of_descend henc hi hfound
      · apply lt_of_descend henc hstart hfound
  · cases h

/-! ### Transitions -/

/-- A transition belongs to the node at `index` and leads to places. -/
def Leaves (ps : List Place) (index : Nat) (t : Transition) : Prop :=
  t.source = index ∧ ∀ x ∈ t.targets, x < ps.length

theorem leaves_of_transitionOf (henc : Enclosed ps) (hi : index < ps.length)
    (hparent : ∀ q, n.parent = some q → q < ps.length) {event : String}
    {d : Document.Transition} {t : Transition}
    (h : transitionOf ps index n event d = .ok t) :
  Leaves ps index t
  := by
  rw [transitionOf] at h
  obtain ⟨targets, htargets, h⟩ := Outcome.bind_eq_ok.mp h
  have hleaves : ∀ guard, Leaves ps index
      { event, source := index, targets, guard, actions := d.actions,
        internal := d.internal, order := 0 } := by
    intro guard
    constructor
    · rfl
    · intro x hx
      obtain ⟨target, -, hx⟩ := Outcome.exists_of_mem_mapM htargets hx
      apply lt_of_targetOf henc hi hparent hx
  split at h
  · cases h
    apply hleaves
  · split at h
    · cases h
      apply hleaves
    · cases h

/-- A transition has the actions that are declared for it. -/
theorem actions_of_transitionOf {event : String} {d : Document.Transition} {t : Transition}
    (h : transitionOf ps index n event d = .ok t) :
  t.actions = d.actions
  := by
  rw [transitionOf] at h
  obtain ⟨targets, -, h⟩ := Outcome.bind_eq_ok.mp h
  split at h
  · cases h
    rfl
  · split at h
    · cases h
      rfl
    · cases h

/-- The transitions that a state declares, those of its invocations included. -/
def declaredTransitions (own : Declaration) : List Document.Transition :=
  own.on.flatMap Prod.snd ++ own.after.flatMap Prod.snd ++ own.always ++ own.onDone ++
    own.invoke.flatMap (fun i => i.onDone ++ i.onError)

theorem exists_of_mem_invokeTransitions {taken : List String} {position : Nat}
    {is : List Document.Invocation} {ts : List Transition} {t : Transition}
    (h : invokeTransitions ps index n taken position is = .ok ts) (ht : t ∈ ts) :
  ∃ event, ∃ d ∈ is.flatMap (fun i => i.onDone ++ i.onError),
    transitionOf ps index n event d = .ok t
  := by
  induction is generalizing taken position ts with
  | nil =>
    cases h
    cases ht
  | cons i rest ih =>
    rw [invokeTransitions] at h
    split at h
    · cases h
    · obtain ⟨done, hdone, h⟩ := Outcome.bind_eq_ok.mp h
      obtain ⟨failed, hfailed, h⟩ := Outcome.bind_eq_ok.mp h
      obtain ⟨others, hothers, h⟩ := Outcome.bind_eq_ok.mp h
      cases h
      rw [List.flatMap_cons]
      rcases List.mem_append.mp ht with ht | ht
      · rcases List.mem_append.mp ht with ht | ht
        · obtain ⟨d, hd, hof⟩ := Outcome.exists_of_mem_mapM hdone ht
          exact ⟨_, d, List.mem_append_left _ (List.mem_append_left _ hd), hof⟩
        · obtain ⟨d, hd, hof⟩ := Outcome.exists_of_mem_mapM hfailed ht
          exact ⟨_, d, List.mem_append_left _ (List.mem_append_right _ hd), hof⟩
      · obtain ⟨event, d, hd, hof⟩ := ih hothers ht
        exact ⟨event, d, List.mem_append_right _ hd, hof⟩

/-- Every transition of a state comes from one that the state declares. -/
theorem exists_of_mem_transitionsOf {taken : List String} {p : Place} {ts : List Transition}
    {t : Transition} (h : transitionsOf ps index taken p = .ok ts) (ht : t ∈ ts) :
  ∃ event, ∃ d ∈ declaredTransitions p.own, transitionOf ps index p.node event d = .ok t
  := by
  rw [transitionsOf] at h
  obtain ⟨on, hon, h⟩ := Outcome.bind_eq_ok.mp h
  obtain ⟨after, hafter, h⟩ := Outcome.bind_eq_ok.mp h
  obtain ⟨always, halways, h⟩ := Outcome.bind_eq_ok.mp h
  obtain ⟨done, hdone, h⟩ := Outcome.bind_eq_ok.mp h
  obtain ⟨invoked, hinvoked, h⟩ := Outcome.bind_eq_ok.mp h
  cases h
  simp only [List.mem_append, List.mem_flatten] at ht
  simp only [declaredTransitions, List.mem_append]
  rcases ht with (((⟨ts, hts, ht⟩ | ⟨ts, hts, ht⟩) | ht) | ht) | ht
  · obtain ⟨⟨event, ds⟩, hmem, hds⟩ := Outcome.exists_of_mem_mapM hon hts
    simp only at hds
    split at hds
    · cases hds
    · obtain ⟨d, hd, hof⟩ := Outcome.exists_of_mem_mapM hds ht
      have hdeclared : d ∈ p.own.on.flatMap Prod.snd := List.mem_flatMap.mpr ⟨_, hmem, hd⟩
      exact ⟨_, d, Or.inl (Or.inl (Or.inl (Or.inl hdeclared))), hof⟩
  · obtain ⟨⟨key, ds⟩, hmem, hds⟩ := Outcome.exists_of_mem_mapM hafter hts
    obtain ⟨d, hd, hof⟩ := Outcome.exists_of_mem_mapM hds ht
    have hdeclared : d ∈ p.own.after.flatMap Prod.snd := List.mem_flatMap.mpr ⟨_, hmem, hd⟩
    exact ⟨_, d, Or.inl (Or.inl (Or.inl (Or.inr hdeclared))), hof⟩
  · obtain ⟨d, hd, hof⟩ := Outcome.exists_of_mem_mapM halways ht
    exact ⟨_, d, Or.inl (Or.inl (Or.inr hd)), hof⟩
  · obtain ⟨d, hd, hof⟩ := Outcome.exists_of_mem_mapM hdone ht
    exact ⟨_, d, Or.inl (Or.inr hd), hof⟩
  · obtain ⟨event, d, hd, hof⟩ := exists_of_mem_invokeTransitions hinvoked ht
    exact ⟨event, d, Or.inr hd, hof⟩

/-- Every transition that a state declares belongs to it and leads to places. -/
theorem leaves_of_transitionsOf (henc : Enclosed ps) (hi : index < ps.length)
    {taken : List String} {p : Place} (hp : p ∈ ps) {ts : List Transition}
    (h : transitionsOf ps index taken p = .ok ts) :
  ∀ t ∈ ts, Leaves ps index t
  := by
  intro t ht
  obtain ⟨event, d, -, hof⟩ := exists_of_mem_transitionsOf h ht
  exact leaves_of_transitionOf henc hi (henc p hp).1 hof

/-! ### Orders -/

/-- Numbering changes only the orders of transitions. -/
theorem exists_of_mem_numbered {order : Nat} {ts : List Transition} {t : Transition}
    (h : t ∈ numbered order ts) :
  ∃ u ∈ ts, t = { u with order := t.order }
  := by
  obtain ⟨⟨u, i⟩, hu, rfl⟩ := List.mem_map.mp h
  exact ⟨u, List.fst_mem_of_mem_zipIdx hu, rfl⟩

/-- Numbered transitions have consecutive orders. -/
theorem map_order_numbered (order : Nat) (ts : List Transition) :
  (numbered order ts).map Transition.order = List.range' order ts.length
  := by
  rw [numbered, List.map_map]
  apply List.ext_getElem
  · simp
  · intro i h₁ h₂
    simp

/-! ### Nodes -/

/-- The node `n` has the parent and the children of the place `p` and a kind as found for
it, where a history node has at most one default. -/
structure Links (ps : List Place) (index : Nat) (p : Place) (kind : Kind) (n : Node) :
    Prop where
  parent : n.parent = p.node.parent
  children : n.children = p.node.children
  kind : n.kind = kind ∨ ∃ depth old defaults, kind = .history depth old ∧
    n.kind = .history depth defaults ∧ defaults.length ≤ 1 ∧ ∀ x ∈ defaults, x < ps.length
  leaves : ∀ t ∈ n.transitions, Leaves ps index t

theorem links_of_linked (henc : Enclosed ps) (hi : index < ps.length) {order : Nat}
    {taken : List String} {p : Place} (hp : p ∈ ps) {kind : Kind} {n : Node}
    (h : linked ps index order taken p kind = .ok n) :
  Links ps index p kind n ∧
    n.transitions.map Transition.order = List.range' order n.transitions.length
  := by
  have hparent := (henc p hp).1
  rw [linked] at h
  obtain ⟨ts, hts, h⟩ := Outcome.bind_eq_ok.mp h
  have hleaves : ∀ t ∈ numbered order ts, Leaves ps index t := by
    intro t ht
    obtain ⟨u, hu, heq⟩ := exists_of_mem_numbered ht
    rw [heq]
    exact leaves_of_transitionsOf henc hi hp hts u hu
  have horders := map_order_numbered order ts
  have hlength : (numbered order ts).length = ts.length := by simp [numbered]
  split at h
  · next depth old _ =>
    split at h
    · obtain ⟨x, hx, h⟩ := Outcome.bind_eq_ok.mp h
      cases h
      have hlt := lt_of_targetOf henc hi hparent hx
      constructor
      · exact ⟨rfl, rfl, Or.inr ⟨depth, old, [x], rfl, rfl, by simp, by simpa using hlt⟩,
          hleaves⟩
      · rw [hlength]
        exact horders
    · cases h
      constructor
      · exact ⟨rfl, rfl, Or.inr ⟨depth, old, [], rfl, rfl, by simp, by simp⟩,
          hleaves⟩
      · rw [hlength]
        exact horders
  · cases h
    constructor
    · exact ⟨rfl, rfl, Or.inl rfl, hleaves⟩
    · rw [hlength]
      exact horders

/-- What a node has that is linked from a place: its invocations, its transitions, and the actions
that arm and disarm both. -/
structure LinkedFrom (ps : List Place) (index order : Nat) (taken : List String) (p : Place)
    (n : Node) : Prop where
  transitions : ∃ ts, transitionsOf ps index taken p = .ok ts ∧ n.transitions = numbered order ts
  invocations : n.invocations = invocationsOf index p.node.id 0 p.own.invoke
  entry : n.entry = p.node.entry ++ (p.own.after.map Prod.fst).map (armDelay p.node.id) ++
    n.invocations.map (fun i => .start i.id)
  exit : n.exit = p.node.exit ++
    (p.own.after.map Prod.fst).map (fun key => .cancel (afterEvent key p.node.id)) ++
      n.invocations.map (fun i => .stop i.id)

theorem linkedFrom_of_linked {order : Nat} {taken : List String} {p : Place} {kind : Kind}
    {n : Node} (h : linked ps index order taken p kind = .ok n) :
  LinkedFrom ps index order taken p n
  := by
  rw [linked] at h
  obtain ⟨ts, hts, h⟩ := Outcome.bind_eq_ok.mp h
  dsimp only at h
  split at h
  · split at h
    · obtain ⟨target, -, h⟩ := Outcome.bind_eq_ok.mp h
      cases h
      exact ⟨⟨ts, hts, rfl⟩, rfl, rfl, rfl⟩
    · cases h
      exact ⟨⟨ts, hts, rfl⟩, rfl, rfl, rfl⟩
  · cases h
    exact ⟨⟨ts, hts, rfl⟩, rfl, rfl, rfl⟩

theorem linkedFrom_of_linkAll {order : Nat} {taken : List String} {pks : List (Place × Kind)}
    {nodes : List Node} {k : Nat} (h : linkAll ps index order taken pks = .ok nodes)
    (hn : nodes[k]? = some n) :
  ∃ pk order' taken', pks[k]? = some pk ∧ LinkedFrom ps (index + k) order' taken' pk.1 n
  := by
  induction pks generalizing index order taken nodes k with
  | nil =>
    cases h
    cases hn
  | cons pk pks ih =>
    obtain ⟨p, kind⟩ := pk
    rw [linkAll] at h
    obtain ⟨m, hm, h⟩ := Outcome.bind_eq_ok.mp h
    obtain ⟨others, hothers, h⟩ := Outcome.bind_eq_ok.mp h
    cases h
    cases k with
    | zero =>
      rw [List.getElem?_cons_zero, Option.some.injEq] at hn
      subst hn
      exact ⟨_, order, taken, rfl, linkedFrom_of_linked hm⟩
    | succ k =>
      rw [List.getElem?_cons_succ] at hn
      obtain ⟨pk, order', taken', hpk, hlinked⟩ := ih hothers hn
      rw [Nat.add_assoc, Nat.add_comm 1 k] at hlinked
      exact ⟨pk, order', taken', hpk, hlinked⟩

/-- The nodes of a compiled chart are linked from the places of the document. -/
theorem exists_linkAll {document : Document.Machine} {chart : Chart}
    (h : ofDocument document = .ok chart) :
  ∃ kinds, kinds.map Prod.fst = places document ∧
    linkAll (places document) 0 0 [] kinds = .ok chart.nodes
  := by
  unfold ofDocument at h
  split at h
  · cases h
  dsimp only at h
  split at h
  · cases h
  obtain ⟨kinds, hkinds, h⟩ := Outcome.bind_eq_ok.mp h
  obtain ⟨nodes, hnodes, h⟩ := Outcome.bind_eq_ok.mp h
  cases h
  have hlength := (Outcome.forall₂_of_mapM_eq_ok hkinds).length_eq
  exact ⟨_, List.map_fst_zip (Nat.le_of_eq hlength), hnodes⟩

/-- Every node of a compiled chart is linked from its place. -/
theorem exists_linkedFrom {document : Document.Machine} {chart : Chart} {k : Nat}
    (h : ofDocument document = .ok chart) (hn : chart.node? k = some n) :
  ∃ p order taken, (places document)[k]? = some p ∧
    LinkedFrom (places document) k order taken p n
  := by
  obtain ⟨kinds, hkinds, hnodes⟩ := exists_linkAll h
  obtain ⟨pk, order, taken, hpk, hlinked⟩ := linkedFrom_of_linkAll hnodes hn
  rw [Nat.zero_add] at hlinked
  refine ⟨pk.1, order, taken, ?_, hlinked⟩
  rw [← hkinds, List.getElem?_map, hpk, Option.map_some]

/-- The nodes at a row of places are linked one by one, and their transitions have
consecutive orders. -/
theorem links_of_linkAll (henc : Enclosed ps) {order : Nat} {taken : List String}
    {pks : List (Place × Kind)} {nodes : List Node} (hpks : ∀ pk ∈ pks, pk.1 ∈ ps)
    (hlen : index + pks.length ≤ ps.length)
    (h : linkAll ps index order taken pks = .ok nodes) :
  List.Forall₂ (fun pk m => Links ps pk.2 pk.1.1 pk.1.2 m) (pks.zipIdx index) nodes ∧
    (nodes.flatMap Node.transitions).map Transition.order =
      List.range' order (nodes.flatMap Node.transitions).length
  := by
  induction pks generalizing index order taken nodes with
  | nil =>
    cases h
    simp
  | cons pk rest ih =>
    obtain ⟨p, kind⟩ := pk
    rw [linkAll] at h
    obtain ⟨m, hm, h⟩ := Outcome.bind_eq_ok.mp h
    obtain ⟨others, hothers, h⟩ := Outcome.bind_eq_ok.mp h
    cases h
    rw [List.length_cons] at hlen
    have hp : p ∈ ps := hpks (p, kind) List.mem_cons_self
    obtain ⟨hlinks, horder⟩ := links_of_linked henc (by omega) hp hm
    obtain ⟨hrest, horders⟩ := ih (fun pk hpk => hpks pk (List.mem_cons_of_mem _ hpk))
      (by omega) hothers
    constructor
    · rw [List.zipIdx_cons]
      exact List.Forall₂.cons hlinks hrest
    · rw [List.flatMap_cons, List.map_append, horder, horders, List.length_append,
        List.range'_append_1]

/-! ### Kinds -/

/-- The initial child found for a compound place is a child that declares no history. -/
theorem initial_of_initialOf {p : Place} {first i : Nat} (hfirst : first ∈ p.node.children)
    (h : initialOf ps p first = .ok i) :
  i ∈ p.node.children ∧ ∀ q, ps[i]? = some q → declaresHistory q = false
  := by
  have hlast : ∀ c ∈ p.node.children,
      (if (ps[c]?).any declaresHistory then .error .initialHistory else .ok c) =
        (.ok i : Except StateProblem Nat) →
      i ∈ p.node.children ∧ ∀ q, ps[i]? = some q → declaresHistory q = false := by
    intro c hc hi
    split at hi
    · cases hi
    · next hhistory =>
      cases hi
      use hc
      intro q hq
      rw [hq] at hhistory
      simpa using hhistory
  rw [initialOf] at h
  split at h
  · apply hlast first hfirst h
  · split at h
    · next hfind =>
      apply hlast _ (List.mem_of_find?_eq_some hfind) h
    · cases h

theorem initial_of_kindOf {p : Place} {i : Nat} (h : kindOf ps p = .ok (.compound i)) :
  i ∈ p.node.children ∧ ∀ q, ps[i]? = some q → declaresHistory q = false
  := by
  rw [kindOf] at h
  split at h
  any_goals cases h
  · split at h
    · cases h
    · cases h
  · next hchildren =>
    obtain ⟨j, hj, hij⟩ := Outcome.map_eq_ok.mp h
    cases hij
    apply initial_of_initialOf _ hj
    rw [hchildren]
    apply List.mem_cons_self

/-- A place found to be a history node declares one, and has a parent and no children. -/
theorem declaresHistory_of_kindOf {p : Place} {depth : HistoryDepth} {defaults : List Nat}
    (h : kindOf ps p = .ok (.history depth defaults)) :
  declaresHistory p = true ∧ p.node.parent ≠ none ∧ p.node.children = []
  := by
  rw [kindOf] at h
  split at h
  any_goals cases h
  · next htype hchildren =>
    split at h
    · cases h
    · next hparent =>
      refine ⟨?_, by simpa using hparent, hchildren⟩
      rw [declaredType] at htype
      rw [declaresHistory]
      split at htype
      · next hown =>
        simp [hown, htype]
      · next hhistory =>
        simp [hhistory]
      · split at htype
        · cases htype
        · cases htype
  · obtain ⟨j, -, hj⟩ := Outcome.map_eq_ok.mp h
    cases hj

/-- A place with children is found to be compound or parallel. -/
theorem inner_of_kindOf {p : Place} {kind : Kind} (h : kindOf ps p = .ok kind)
    (hchildren : p.node.children ≠ []) :
  kind = .parallel ∨ ∃ i, kind = .compound i
  := by
  rw [kindOf] at h
  split at h
  any_goals cases h
  any_goals contradiction
  · left
    rfl
  · obtain ⟨j, -, rfl⟩ := Outcome.map_eq_ok.mp h
    right
    exact ⟨j, rfl⟩

end Statechart.Chart
