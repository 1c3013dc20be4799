import Mathlib.Logic.Relation
import Statechart.Proofs.Chart.Ancestry
import Statechart.Proofs.Chart.Path

/-!
# Document order

The nodes of a compiled chart stand in document order (`preordered_of_ofDocument`): node `n` is
that of the `n`-th tree of its document, parents first.  So the children of a node are the nodes
of the children of its tree, and the nodes below it are those that follow it, as many as its tree
has states besides its own (`descends_iff`).
-/

namespace Statechart

namespace Document.State

mutual

/-- The trees of a state and of the states below it in document order, each with its key. -/
def subtrees (key : String) : State → List (String × State)
  | .node own children => (key, .node own children) :: subtreesAll children

/-- The trees of children and of the states below them in document order. -/
def subtreesAll : List (String × State) → List (String × State)
  | [] => []
  | (key, child) :: rest => subtrees key child ++ subtreesAll rest

end

mutual

theorem length_subtrees (key : String) (s : State) :
  (subtrees key s).length = s.size
  := by
  cases s with
  | node own children =>
    rw [subtrees, List.length_cons, length_subtreesAll children, size, Nat.add_comm]

theorem length_subtreesAll (children : List (String × State)) :
  (subtreesAll children).length = sizeAll children
  := by
  cases children with
  | nil => rfl
  | cons e rest =>
    rw [subtreesAll, List.length_append, length_subtrees e.1 e.2, length_subtreesAll rest, sizeAll]

end

theorem getElem?_subtrees_zero (key : String) (s : State) :
  (subtrees key s)[0]? = some (key, s)
  := by
  cases s with
  | node own children => rfl

mutual

/-- From the place of a tree on, its own trees are listed. -/
theorem isPrefix_subtrees {key : String} {n : Nat} {e : String × State} (s : State)
    (h : (subtrees key s)[n]? = some e) :
  subtrees e.1 e.2 <+: (subtrees key s).drop n
  := by
  cases s with
  | node own children =>
    rw [subtrees] at h ⊢
    cases n with
    | zero =>
      rw [List.getElem?_cons_zero, Option.some.injEq] at h
      rw [← h, List.drop_zero]
      exact List.prefix_rfl
    | succ n =>
      rw [List.getElem?_cons_succ] at h
      exact isPrefix_subtreesAll children h

/-- The same for the trees of children. -/
theorem isPrefix_subtreesAll {n : Nat} {e : String × State} (children : List (String × State))
    (h : (subtreesAll children)[n]? = some e) :
  subtrees e.1 e.2 <+: (subtreesAll children).drop n
  := by
  cases children with
  | nil => cases h
  | cons f rest =>
    rw [subtreesAll] at h ⊢
    by_cases hn : n < (subtrees f.1 f.2).length
    · rw [List.getElem?_append_left hn] at h
      rw [List.drop_append_of_le_length (Nat.le_of_lt hn)]
      exact (isPrefix_subtrees f.2 h).trans (List.prefix_append _ _)
    · rw [Nat.not_lt] at hn
      rw [List.getElem?_append_right hn] at h
      rw [List.drop_append, List.drop_eq_nil_of_le hn, List.nil_append]
      exact isPrefix_subtreesAll rest h

end

end Document.State

/-- The trees of a machine in document order, that of its root first. -/
def Document.Machine.trees (m : Machine) : List (String × State) :=
  m.root.subtrees ""

namespace Chart

open Document (State)
open Document.State (subtrees subtreesAll)

/-! ### Places of children -/

variable {trees : List (String × State)} {start : Nat} {children : List (String × State)}

/-- Where the trees of children are listed, the first child comes first, and the trees of the
others follow its own. -/
theorem trees_of_prefix {e : String × State} {rest : List (String × State)}
    (h : subtreesAll (e :: rest) <+: trees.drop start) :
  trees[start]? = some e ∧ subtreesAll rest <+: trees.drop (start + e.2.size)
  := by
  obtain ⟨after, hafter⟩ := h
  rw [subtreesAll, List.append_assoc] at hafter
  constructor
  · have hpos : 0 < (subtrees e.1 e.2).length := by
      rw [State.length_subtrees]
      exact e.2.size_pos
    have hfirst : (trees.drop start)[0]? = some e := by
      rw [← hafter, List.getElem?_append_left hpos, State.getElem?_subtrees_zero]
    rwa [List.getElem?_drop] at hfirst
  · refine ⟨after, ?_⟩
    rw [← List.drop_drop, ← hafter, List.drop_left' (State.length_subtrees e.1 e.2)]

/-- The places of children are those of their trees, in order. -/
theorem map_childPlaces (h : subtreesAll children <+: trees.drop start) :
  (childPlaces start children).map (trees[·]?) = children.map some
  := by
  induction children generalizing start with
  | nil => rfl
  | cons e rest ih =>
    obtain ⟨hfirst, hrest⟩ := trees_of_prefix h
    rw [childPlaces, List.map_cons, List.map_cons, hfirst, ih hrest]

/-- The trees of children fill the places from the first on, one after the other. -/
theorem exists_childPlace_iff (h : subtreesAll children <+: trees.drop start) {a : Nat} :
  (∃ c ∈ childPlaces start children, ∃ e, trees[c]? = some e ∧ c ≤ a ∧ a < c + e.2.size) ↔
    start ≤ a ∧ a < start + State.sizeAll children
  := by
  induction children generalizing start with
  | nil =>
    rw [childPlaces, State.sizeAll]
    constructor
    · rintro ⟨c, hc, -⟩
      cases hc
    · omega
  | cons e rest ih =>
    obtain ⟨hfirst, hrest⟩ := trees_of_prefix h
    have hpos := e.2.size_pos
    have hsplit : (start ≤ a ∧ a < start + State.sizeAll (e :: rest)) ↔
        (start ≤ a ∧ a < start + e.2.size) ∨
          start + e.2.size ≤ a ∧ a < start + e.2.size + State.sizeAll rest := by
      rw [State.sizeAll]
      omega
    rw [hsplit, ← ih hrest, childPlaces]
    constructor
    · rintro ⟨c, hc, f, hf, hle, hlt⟩
      rcases List.mem_cons.mp hc with rfl | hc
      · rw [hfirst, Option.some.injEq] at hf
        rw [hf]
        exact Or.inl ⟨hle, hlt⟩
      · exact Or.inr ⟨c, hc, f, hf, hle, hlt⟩
    · rintro (⟨hle, hlt⟩ | ⟨c, hc, f, hf, hle, hlt⟩)
      · exact ⟨start, List.mem_cons_self, e, hfirst, hle, hlt⟩
      · exact ⟨c, List.mem_cons_of_mem _ hc, f, hf, hle, hlt⟩

/-! ### Trees and places -/

/-- Whether a place with its number is that of a tree of the given machine. -/
structure Holds (machine : String) (pn : Place × Nat) (e : String × State) : Prop where
  id : pn.1.node.id = stateId machine pn.1.node.path e.2.own
  key : pn.1.node.key = e.1
  children : pn.1.node.children = childPlaces (pn.2 + 1) e.2.children

mutual

/-- The places of a tree are those of its trees in document order. -/
theorem forall₂_layOut (machine : String) (start : Nat) (path : List String) {key : String}
    (hkey : path.getLast?.getD "" = key) (parent : Option Nat) (s : State) :
  List.Forall₂ (Holds machine) ((layOut machine start path parent s).zipIdx start) (subtrees key s)
  := by
  cases s with
  | node own children =>
    rw [layOut, List.zipIdx_cons, subtrees]
    exact .cons ⟨rfl, hkey, rfl⟩ (forall₂_layOutAll machine (start + 1) path start children)

/-- The same for the trees of children. -/
theorem forall₂_layOutAll (machine : String) (start : Nat) (path : List String) (above : Nat)
    (children : List (String × State)) :
  List.Forall₂ (Holds machine)
    ((layOutAll machine start path above children).zipIdx start) (subtreesAll children)
  := by
  cases children with
  | nil => exact .nil
  | cons e rest =>
    have hkey : (path ++ [e.1]).getLast?.getD "" = e.1 := by
      rw [List.getLast?_concat, Option.getD_some]
    rw [layOutAll, List.zipIdx_append, length_layOut, subtreesAll]
    exact List.rel_append (forall₂_layOut machine start _ hkey (some above) e.2)
      (forall₂_layOutAll machine (start + e.2.size) path above rest)

end

variable {document : Document.Machine} {chart : Chart} {n a : Nat} {e : String × State}

theorem exists_place_of_tree (he : document.trees[n]? = some e) :
  ∃ p, (places document)[n]? = some p ∧ Holds (document.root.own.id.getD defaultId) (p, n) e
  := by
  have hall := forall₂_layOut (document.root.own.id.getD defaultId) 0 [] rfl none
    document.root
  obtain ⟨⟨p, k⟩, hp, hholds⟩ := Outcome.exists_of_forall₂ hall he
  rw [List.getElem?_zipIdx, Option.map_eq_some_iff] at hp
  obtain ⟨q, hq, heq⟩ := hp
  obtain ⟨rfl, rfl⟩ := Prod.mk.inj heq
  rw [Nat.zero_add] at hholds
  exact ⟨q, hq, hholds⟩

/-! ### Trees and nodes -/

theorem length_nodes (h : ofDocument document = .ok chart) :
  chart.nodes.length = document.trees.length
  := by
  rw [(exists_links h).1, places, length_layOut, Document.Machine.trees, State.length_subtrees]

theorem lt_of_tree (h : ofDocument document = .ok chart) (he : document.trees[n]? = some e) :
  n < chart.nodes.length
  := by
  rw [length_nodes h]
  exact (List.getElem?_eq_some_iff.mp he).1

/-- A node has the id and the key of its tree, and its children take the places after it. -/
theorem node_of_tree (h : ofDocument document = .ok chart) (he : document.trees[n]? = some e) :
  chart.nodeId n = stateId (document.root.own.id.getD defaultId) (chart.path n) e.2.own ∧
    chart.key n = e.1 ∧ chart.children n = childPlaces (n + 1) e.2.children
  := by
  obtain ⟨p, hp, hholds⟩ := exists_place_of_tree he
  obtain ⟨node, q, kind, hnode, hq, -, hlink⟩ := exists_place h (lt_of_tree h he)
  rw [hp, Option.some.injEq] at hq
  subst hq
  have hids := congrArg (·[n]?)
    (map_of_ofDocument (f := Node.id) (fun hlinked => (named_of_linked hlinked).1) h)
  simp only [List.getElem?_map, hp, Option.map_some] at hids
  refine ⟨?_, ?_, ?_⟩
  · rw [nodeId, node?, hids, (path_of_places h hp).1, ← hholds.id]
    rfl
  · rw [(path_of_places h hp).2, hholds.key]
  · rw [Chart.children, hnode, Option.map_some, Option.getD_some, hlink.children,
      hholds.children]

/-- From the place after a tree on, the trees of its children are listed. -/
theorem subtreesAll_of_tree (he : document.trees[n]? = some e) :
  subtreesAll e.2.children <+: document.trees.drop (n + 1)
  := by
  obtain ⟨key, s⟩ := e
  cases s with
  | node own children =>
    obtain ⟨after, hafter⟩ := State.isPrefix_subtrees document.root he
    refine ⟨after, ?_⟩
    rw [Document.Machine.trees, ← List.drop_drop, ← hafter, subtrees]
    rfl

theorem size_eq (s : State) :
  s.size = 1 + State.sizeAll s.children
  := by
  cases s with
  | node own children => rw [State.size, State.children]

/-- The nodes below a node are those that follow it, as many as its tree has states besides its
own.  The induction is on the places that are left. -/
theorem isBelow_iff_of_tree (h : ofDocument document = .ok chart)
    (he : document.trees[n]? = some e) :
  chart.isBelow a n = true ↔ n < a ∧ a < n + e.2.size
  := by
  have wf := wellFormed_of_ofDocument h
  induction hleft : chart.nodes.length - n using Nat.strongRecOn generalizing n e with
  | _ left ih =>
    have hn := lt_of_tree h he
    have hchild : ∀ {c f}, c ∈ childPlaces (n + 1) e.2.children →
        document.trees[c]? = some f →
        chart.parent? c = some n ∧ (chart.Within a c ↔ c ≤ a ∧ a < c + f.2.size) := by
      intro c f hc hf
      have hparent : chart.parent? c = some n :=
        wf.mem_children.mp ((node_of_tree h he).2.2 ▸ hc)
      have hlt := wf.parent_lt hparent
      have hpos := f.2.size_pos
      have hbelow : chart.isBelow a c = true ↔ c < a ∧ a < c + f.2.size :=
        ih (chart.nodes.length - c) (by omega) hf rfl
      refine ⟨hparent, ?_⟩
      rw [Within, hbelow]
      omega
    have hrange : n < a ∧ a < n + e.2.size ↔
        n + 1 ≤ a ∧ a < n + 1 + State.sizeAll e.2.children := by
      rw [size_eq]
      omega
    rw [hrange, ← exists_childPlace_iff (subtreesAll_of_tree he)]
    constructor
    · intro hbelow
      obtain ⟨c, hparent, hwithin⟩ := wf.exists_child hbelow
      have hc : c ∈ childPlaces (n + 1) e.2.children :=
        (node_of_tree h he).2.2 ▸ wf.mem_children.mpr hparent
      have hlt : c < document.trees.length := by
        rw [← length_nodes h]
        exact lt_of_parent hparent
      have hf := List.getElem?_eq_getElem hlt
      exact ⟨c, hc, _, hf, (hchild hc hf).2.mp hwithin⟩
    · rintro ⟨c, hc, f, hf, hbounds⟩
      obtain ⟨hparent, hwithin⟩ := hchild hc hf
      exact wf.within_isBelow (hwithin.mpr hbounds) (wf.isBelow_of_parent hparent)

/-! ### Document order -/

/-- Whether a node lies below another along the lists of children. -/
def Descends (chart : Chart) : Nat → Nat → Prop :=
  Relation.TransGen (fun c p => c ∈ chart.children p)

theorem WellFormed.descends_iff (wf : chart.WellFormed) :
  chart.Descends n a ↔ chart.isBelow n a = true
  := by
  constructor
  · intro h
    induction h with
    | single hc => exact wf.isBelow_of_parent (wf.mem_children.mp hc)
    | tail _ hc ih => exact wf.isBelow_trans ih (wf.isBelow_of_parent (wf.mem_children.mp hc))
  · intro h
    induction n using Nat.strongRecOn with
    | _ n ih =>
      obtain ⟨p, hp, hpa⟩ := wf.isBelow_iff.mp h
      have hstep : n ∈ chart.children p := wf.mem_children.mpr hp
      rcases hpa with rfl | hpa
      · exact .single hstep
      · exact .head hstep (ih p (wf.parent_lt hp) hpa)

/-- A node has as many ancestors as its path has keys. -/
theorem Pathed.length_path (hpaths : chart.Pathed) (wf : chart.WellFormed)
    (hn : n < chart.nodes.length) :
  (chart.path n).length = (chart.ancestors n).length
  := by
  induction n using Nat.strongRecOn with
  | _ n ih =>
    by_cases hroot : n = root
    · rw [hroot, hpaths.path_root, ancestors_of_parent_none wf.parent_root]
      rfl
    · obtain ⟨p, hp⟩ := wf.exists_parent hn hroot
      have hlt := wf.parent_lt hp
      rw [hpaths.path_child hp, wf.ancestors_of_parent hp, List.length_append, List.length_cons,
        ih p hlt (Nat.lt_trans hlt hn)]
      rfl

/-- Whether the nodes of a chart stand in the order of a document, each being that of the tree at
its place. -/
structure Preordered (chart : Chart) (document : Document.Machine) : Prop where
  length : chart.nodes.length = document.trees.length
  id : ∀ {n e}, document.trees[n]? = some e →
    chart.nodeId n = stateId (document.root.own.id.getD defaultId) (chart.path n) e.2.own
  key : ∀ {n e}, document.trees[n]? = some e → chart.key n = e.1
  /-- The children of a node are the nodes of the children of its tree, in order. -/
  children : ∀ {n e}, document.trees[n]? = some e →
    (chart.children n).map (document.trees[·]?) = e.2.children.map some
  increasing : ∀ n, (chart.children n).Pairwise (· < ·)
  parent_root : chart.parent? root = none
  /-- Every other node has a parent, which comes before it and lists it once. -/
  parent : ∀ {n}, n < chart.nodes.length → n ≠ root →
    ∃ p, chart.parent? n = some p ∧ p < n ∧ (chart.children p).count n = 1
  /-- The nodes below a node are those that follow it, as many as its tree has states besides
  its own. -/
  descends_iff : ∀ {n e a}, document.trees[n]? = some e →
    (chart.Descends a n ↔ n < a ∧ a < n + e.2.size)
  isBelow_iff : ∀ {n e a}, document.trees[n]? = some e →
    (chart.isBelow a n = true ↔ n < a ∧ a < n + e.2.size)
  /-- The ancestors of a node are listed once each. -/
  ancestors : ∀ n, (chart.ancestors n).Nodup ∧ ∀ a, a ∈ chart.ancestors n ↔ chart.Descends n a
  depth : ∀ {n node}, chart.node? n = some node → node.depth = (chart.ancestors n).length
  ids : (chart.nodes.map Node.id).Nodup
  orders : ((chart.nodes.flatMap Node.transitions).map Transition.order).Pairwise (· < ·)

/-- The nodes of a compiled chart stand in the order of its document. -/
theorem preordered_of_ofDocument (h : ofDocument document = .ok chart) :
  chart.Preordered document
  := by
  have wf := wellFormed_of_ofDocument h
  have hpaths := pathed_of_ofDocument h
  constructor
  case length => exact length_nodes h
  case id =>
    intro n e he
    exact (node_of_tree h he).1
  case key =>
    intro n e he
    exact (node_of_tree h he).2.1
  case children =>
    intro n e he
    rw [(node_of_tree h he).2.2]
    exact map_childPlaces (subtreesAll_of_tree he)
  case increasing => exact wf.children_increasing
  case parent_root => exact wf.parent_root
  case parent =>
    intro n hn hroot
    obtain ⟨p, hp⟩ := wf.exists_parent hn hroot
    have hnodup : (chart.children p).Nodup := (wf.children_increasing p).imp Nat.ne_of_lt
    exact ⟨p, hp, wf.parent_lt hp, List.count_eq_one_of_mem hnodup (wf.mem_children.mpr hp)⟩
  case descends_iff =>
    intro n e a he
    rw [wf.descends_iff, isBelow_iff_of_tree h he]
  case isBelow_iff =>
    intro n e a he
    exact isBelow_iff_of_tree h he
  case ancestors =>
    intro n
    constructor
    · refine (wf.ancestors_pairwise n).imp ?_
      rintro a b hbelow rfl
      exact wf.not_isBelow_self a hbelow
    · intro a
      rw [wf.descends_iff, isBelow_iff_mem]
  case depth =>
    intro n node hnode
    have hn : n < chart.nodes.length := (List.getElem?_eq_some_iff.mp hnode).1
    rw [← hpaths.length_path wf hn, path, hnode]
    rfl
  case ids => exact nodup_ids h
  case orders => exact wf.orders

/-- A machine that works in two regions. -/
def toured : Document.Machine where
  root := .node { id := some "tour", initial := some "idle" }
    [("idle", .node { on := [("GO", [{ targets := ["busy"] }])] } []),
     ("busy", .node { type := some .parallel, on := [("STOP", [{ targets := ["idle"] }])] }
      [("left", .node { id := some "l", always := [{ internal := true }] } []),
       ("right", .node {} [("x", .node {} []), ("y", .node {} [])])]),
     ("end", .node { type := some .final } [])]

theorem preordered_of_ofDocument_toured :
  ∃ chart, ofDocument toured = .ok chart ∧ chart.Preordered toured ∧ chart.nodes.length = 8 ∧
    chart.children 2 = [3, 4] ∧ (chart.children 2).map chart.key = ["left", "right"] ∧
    (chart.children 2).map chart.nodeId = ["l", "tour.busy.right"] ∧
    (∀ a, chart.isBelow a 2 = true ↔ 2 < a ∧ a < 7) ∧
    (chart.nodes.flatMap Node.transitions).map Transition.order = [0, 1, 2]
  := by
  obtain ⟨chart, h, hp⟩ := Outcome.exists_of_any (x := ofDocument toured)
    (p := fun chart => chart.children 2 = [3, 4] ∧
      (chart.children 2).map chart.key = ["left", "right"] ∧
      (chart.children 2).map chart.nodeId = ["l", "tour.busy.right"] ∧
      (chart.nodes.flatMap Node.transitions).map Transition.order = [0, 1, 2])
    (by decide +kernel)
  obtain ⟨hchildren, hkeys, hids, horders⟩ := of_decide_eq_true hp
  have hordered := preordered_of_ofDocument h
  exact ⟨chart, h, hordered, hordered.length, hchildren, hkeys, hids,
    fun a => hordered.isBelow_iff (n := 2) rfl, horders⟩

end Chart

end Statechart
