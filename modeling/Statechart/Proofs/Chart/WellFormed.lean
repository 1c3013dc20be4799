import Statechart.Proofs.Chart.Compile

/-!
# Well-formed charts

`WellFormed` collects what the compilation of a document guarantees of a chart: its nodes
form a tree in document order, the kinds of the nodes fit the tree, and the transitions of a
node belong to it and lead to nodes.  Every compiled chart is well formed
(`wellFormed_of_ofDocument`).
-/

namespace Statechart.Chart

/-- What holds of every compiled chart. -/
structure WellFormed (chart : Chart) : Prop where
  root_lt : root < chart.nodes.length
  parent_root : chart.parent? root = none
  exists_parent : ∀ {n}, n < chart.nodes.length → n ≠ root → ∃ p, chart.parent? n = some p
  parent_lt : ∀ {n p}, chart.parent? n = some p → p < n
  /-- The nodes between a node and one of its children lie below the node. -/
  parent_le : ∀ {n p k}, chart.parent? n = some p → p < k → k < n →
    ∃ q, chart.parent? k = some q ∧ p ≤ q
  mem_children : ∀ {n c}, c ∈ chart.children n ↔ chart.parent? c = some n
  children_increasing : ∀ n, (chart.children n).Pairwise (· < ·)
  initial : ∀ {n i}, chart.kind n = .compound i →
    i ∈ chart.children n ∧ (chart.kind i).isHistory = false
  inner : ∀ {n c}, c ∈ chart.children n →
    (chart.kind n).isCompound = true ∨ (chart.kind n).isParallel = true
  root_kind : (chart.kind root).isHistory = false
  default_lt : ∀ {n depth defaults x}, chart.kind n = .history depth defaults →
    x ∈ defaults → x < chart.nodes.length
  defaults_length : ∀ {n depth defaults}, chart.kind n = .history depth defaults →
    defaults.length ≤ 1
  source : ∀ {n t}, t ∈ chart.transitions n → t.source = n
  target_lt : ∀ {n t x}, t ∈ chart.transitions n → x ∈ t.targets → x < chart.nodes.length
  orders : ((chart.nodes.flatMap Node.transitions).map Transition.order).Pairwise (· < ·)

/-! ### Places of a machine -/

variable {m : Document.Machine} {chart : Chart}

theorem mem_zipIdx_places {p : Place} {n : Nat} :
  (p, n) ∈ (layOut (m.root.own.id.getD defaultId) 0 [] none m.root).zipIdx ↔
    (places m)[n]? = some p
  := List.mk_mem_zipIdx_iff_getElem?

theorem parent_of_places {p : Place} {n : Nat} (h : (places m)[n]? = some p) :
  (n = root ∧ p.node.parent = none) ∨ ∃ q, p.node.parent = some q ∧ q < n
  := by
  rcases parent_of_mem_layOut m.root (mem_zipIdx_places.mpr h) with h | ⟨q, hq, -, hlt⟩
  · exact Or.inl h
  · exact Or.inr ⟨q, hq, hlt⟩

theorem parent_lt_of_places {p : Place} {n q : Nat} (h : (places m)[n]? = some p)
    (hq : p.node.parent = some q) :
  q < n
  := by
  rcases parent_of_places h with ⟨-, hnone⟩ | ⟨q', hq', hlt⟩
  · rw [hq] at hnone
    cases hnone
  · rw [hq, Option.some.injEq] at hq'
    rw [hq']
    exact hlt

theorem parent_root_of_places {p : Place} (h : (places m)[root]? = some p) :
  p.node.parent = none
  := by
  by_contra hne
  obtain ⟨q, hq⟩ := Option.ne_none_iff_exists'.mp hne
  exact absurd (parent_lt_of_places h hq) (Nat.not_lt_zero q)

theorem mem_children_of_places {p : Place} {n c : Nat} (h : (places m)[n]? = some p) :
  c ∈ p.node.children ↔ ∃ p', (places m)[c]? = some p' ∧ p'.node.parent = some n
  := by
  rw [mem_children_of_mem_layOut m.root (by simp) (mem_zipIdx_places.mpr h)]
  simp only [mem_zipIdx_places]

theorem enclosed_places (m : Document.Machine) :
  Enclosed (places m)
  := by
  intro p hp
  obtain ⟨n, hn⟩ := List.getElem?_of_mem hp
  obtain ⟨hlt, -⟩ := List.getElem?_eq_some_iff.mp hn
  constructor
  · exact fun q hq => Nat.lt_trans (parent_lt_of_places hn hq) hlt
  · intro c hc
    obtain ⟨p', hp', -⟩ := (mem_children_of_places hn).mp hc
    obtain ⟨hc, -⟩ := List.getElem?_eq_some_iff.mp hp'
    exact hc

theorem places_ne_nil (m : Document.Machine) :
  0 < (places m).length
  := by
  rw [places, length_layOut]
  apply m.root.size_pos

/-! ### Nodes of a compiled machine -/

/-- Each node of a compiled machine is linked from its place, and the orders of the
transitions count them. -/
theorem exists_links (h : ofDocument m = .ok chart) :
  chart.nodes.length = (places m).length ∧
    (∀ n node, chart.nodes[n]? = some node → ∃ p kind, (places m)[n]? = some p ∧
      kindOf (places m) p = .ok kind ∧ Links (places m) n p kind node) ∧
    ∃ count, (chart.nodes.flatMap Node.transitions).map Transition.order =
      List.range' 0 count
  := by
  unfold ofDocument at h
  split at h
  · cases h
  dsimp only at h
  split at h
  · cases h
  obtain ⟨kinds, hkinds, h⟩ := Outcome.bind_eq_ok.mp h
  obtain ⟨nodes, hnodes, h⟩ := Outcome.bind_eq_ok.mp h
  cases h
  have hkinds := Outcome.forall₂_of_mapM_eq_ok hkinds
  have hlength : ((places m).zip kinds).length = (places m).length := by
    rw [List.length_zip, ← hkinds.length_eq, Nat.min_self]
  obtain ⟨hlinks, horders⟩ := links_of_linkAll (enclosed_places m)
    (fun pk hpk => (List.of_mem_zip (b := pk.2) hpk).1) (by omega) hnodes
  and_intros
  · rw [← hlinks.length_eq, List.length_zipIdx, hlength]
  · intro n node hnode
    obtain ⟨⟨⟨p, kind⟩, k⟩, hpk, hlink⟩ := Outcome.exists_of_forall₂ hlinks hnode
    rw [List.getElem?_zipIdx, Option.map_eq_some_iff] at hpk
    obtain ⟨pk, hpk, heq⟩ := hpk
    obtain ⟨rfl, rfl⟩ := Prod.mk.inj heq
    rw [Nat.zero_add] at hlink
    obtain ⟨hp, hkind⟩ := List.getElem?_zip_eq_some.mp hpk
    use p, kind, hp
    obtain ⟨p', hp', hfound⟩ := Outcome.exists_of_forall₂ hkinds hkind
    rw [hp, Option.some.injEq] at hp'
    subst hp'
    constructor
    · split at hfound
      · next hk =>
        cases hfound
        exact hk
      · cases hfound
    · exact hlink
  · exact ⟨_, horders⟩

/-- A node of a compiled machine with the place it is linked from. -/
theorem exists_place (h : ofDocument m = .ok chart) {n : Nat} (hn : n < chart.nodes.length) :
  ∃ node p kind, chart.node? n = some node ∧ (places m)[n]? = some p ∧
    kindOf (places m) p = .ok kind ∧ Links (places m) n p kind node
  := by
  obtain ⟨-, hlinks, -⟩ := exists_links h
  have hnode : chart.nodes[n]? = some chart.nodes[n] := List.getElem?_eq_getElem hn
  obtain ⟨p, kind, hp, hkind, hlink⟩ := hlinks n _ hnode
  exact ⟨_, p, kind, hnode, hp, hkind, hlink⟩

theorem node?_eq_none {n : Nat} (h : ¬ n < chart.nodes.length) :
  chart.node? n = none
  := List.getElem?_eq_none (Nat.le_of_not_lt h)

theorem parent?_eq_some_iff (h : ofDocument m = .ok chart) {n q : Nat} :
  chart.parent? n = some q ↔
    ∃ p, (places m)[n]? = some p ∧ p.node.parent = some q
  := by
  obtain ⟨hlength, -, -⟩ := exists_links h
  by_cases hn : n < chart.nodes.length
  · obtain ⟨node, p, kind, hnode, hp, -, hlink⟩ := exists_place h hn
    rw [parent?, hnode, Option.bind_some, hlink.parent, hp]
    simp
  · rw [parent?, node?_eq_none hn, Option.bind_none]
    rw [hlength] at hn
    rw [List.getElem?_eq_none (Nat.le_of_not_lt hn)]
    simp

theorem mem_children_iff (h : ofDocument m = .ok chart) {n c : Nat} :
  c ∈ chart.children n ↔ ∃ p, (places m)[n]? = some p ∧ c ∈ p.node.children
  := by
  obtain ⟨hlength, -, -⟩ := exists_links h
  by_cases hn : n < chart.nodes.length
  · obtain ⟨node, p, kind, hnode, hp, -, hlink⟩ := exists_place h hn
    rw [children, hnode, Option.map_some, Option.getD_some, hlink.children, hp]
    simp
  · rw [children, node?_eq_none hn]
    rw [hlength] at hn
    rw [List.getElem?_eq_none (Nat.le_of_not_lt hn)]
    simp

/-- A compiled kind is a history kind exactly if the kind found for the place is, and else
it is that kind. -/
theorem isHistory_iff_of_links {ps : List Place} {n : Nat} {p : Place} {kind : Kind}
    {node : Node} (h : Links ps n p kind node) :
  node.kind.isHistory = kind.isHistory ∧ (kind.isHistory = false → node.kind = kind)
  := by
  rcases h.kind with hkind | ⟨depth, old, defaults, hold, hnew, -, -⟩
  · rw [hkind]
    exact ⟨rfl, fun _ => rfl⟩
  · rw [hold, hnew]
    constructor
    · rfl
    · intro hfalse
      cases hfalse

/-- The kind of a compiled node fits its place. -/
theorem exists_kind (h : ofDocument m = .ok chart) {n : Nat} (hn : n < chart.nodes.length) :
  ∃ p kind, (places m)[n]? = some p ∧ kindOf (places m) p = .ok kind ∧
    (chart.kind n).isHistory = kind.isHistory ∧
    (kind.isHistory = false → chart.kind n = kind)
  := by
  obtain ⟨node, p, kind, hnode, hp, hkind, hlink⟩ := exists_place h hn
  have hnk : chart.kind n = node.kind := by rw [Chart.kind, hnode]; rfl
  rw [hnk]
  exact ⟨p, kind, hp, hkind, isHistory_iff_of_links hlink⟩

theorem kind_of_not_lt {n : Nat} (h : ¬ n < chart.nodes.length) :
  chart.kind n = .atomic
  := by
  rw [Chart.kind, node?_eq_none h]
  rfl

/-- The initial child of a compiled compound node is a child and no history node. -/
theorem initial_of_ofDocument (h : ofDocument m = .ok chart) {n i : Nat}
    (hk : chart.kind n = .compound i) :
  i ∈ chart.children n ∧ (chart.kind i).isHistory = false
  := by
  obtain ⟨hlength, -, -⟩ := exists_links h
  by_cases hn : n < chart.nodes.length
  · obtain ⟨p, kind, hp, hkind, hhistory, hsame⟩ := exists_kind h hn
    rw [hk] at hhistory hsame
    have hcompound := hsame hhistory.symm
    rw [← hcompound] at hkind
    obtain ⟨hi, hplain⟩ := initial_of_kindOf hkind
    constructor
    · exact (mem_children_iff h).mpr ⟨p, hp, hi⟩
    · obtain ⟨p', hp', -⟩ := (mem_children_of_places hp).mp hi
      have hilt : i < chart.nodes.length := by
        rw [hlength]
        exact (List.getElem?_eq_some_iff.mp hp').1
      obtain ⟨p'', kind', hp'', hkind', hhistory', -⟩ := exists_kind h hilt
      rw [hp', Option.some.injEq] at hp''
      subst hp''
      rw [hhistory']
      cases kind' with
      | history depth defaults =>
        obtain ⟨hdeclares, -, -⟩ := declaresHistory_of_kindOf hkind'
        rw [hplain p' hp'] at hdeclares
        cases hdeclares
      | _ => rfl
  · rw [kind_of_not_lt hn] at hk
    cases hk

/-- Only compound and parallel nodes of a compiled chart have children. -/
theorem inner_of_ofDocument (h : ofDocument m = .ok chart) {n c : Nat}
    (hc : c ∈ chart.children n) :
  (chart.kind n).isCompound = true ∨ (chart.kind n).isParallel = true
  := by
  obtain ⟨hlength, -, -⟩ := exists_links h
  obtain ⟨p, hp, hc⟩ := (mem_children_iff h).mp hc
  have hn : n < chart.nodes.length := by
    rw [hlength]
    exact (List.getElem?_eq_some_iff.mp hp).1
  obtain ⟨p', kind, hp', hkind, -, hsame⟩ := exists_kind h hn
  rw [hp, Option.some.injEq] at hp'
  subst hp'
  rcases inner_of_kindOf hkind (List.ne_nil_of_mem hc) with rfl | ⟨i, rfl⟩
  · right
    rw [hsame rfl]
    rfl
  · left
    rw [hsame rfl]
    rfl

/-- The root of a compiled chart has children. -/
theorem inner_root (h : ofDocument m = .ok chart) :
  (chart.kind root).isCompound = true ∨ (chart.kind root).isParallel = true
  := by
  have hstates : m.root.children.isEmpty = false := by
    unfold ofDocument at h
    split at h
    · cases h
    · next hstates => simpa using hstates
  cases hm : m.root with
  | node own children =>
    rw [hm, Document.State.children] at hstates
    cases children with
    | nil => cases hstates
    | cons e rest =>
      have hroot : (places m)[root]? =
          some (place (m.root.own.id.getD defaultId) 0 [] none own (e :: rest)) := by
        rw [places, hm, layOut]
        rfl
      have hfirst : 1 ∈ chart.children root :=
        (mem_children_iff h).mpr ⟨_, hroot, List.mem_cons_self⟩
      exact inner_of_ofDocument h hfirst

/-- The transitions of a compiled node belong to it and lead to nodes. -/
theorem leaves_of_ofDocument (h : ofDocument m = .ok chart) {n : Nat} {t : Transition}
    (ht : t ∈ chart.transitions n) :
  t.source = n ∧ ∀ x ∈ t.targets, x < chart.nodes.length
  := by
  obtain ⟨hlength, -, -⟩ := exists_links h
  by_cases hn : n < chart.nodes.length
  · obtain ⟨node, p, kind, hnode, -, -, hlink⟩ := exists_place h hn
    rw [Chart.transitions, hnode, Option.map_some, Option.getD_some] at ht
    rw [hlength]
    apply hlink.leaves t ht
  · rw [Chart.transitions, node?_eq_none hn] at ht
    simp at ht

/-- A compiled history node has at most one default, which is a node. -/
theorem defaults_of_ofDocument (h : ofDocument m = .ok chart) {n : Nat}
    {depth : HistoryDepth} {defaults : List Nat} (hk : chart.kind n = .history depth defaults) :
  defaults.length ≤ 1 ∧ ∀ x ∈ defaults, x < chart.nodes.length
  := by
  obtain ⟨hlength, -, -⟩ := exists_links h
  by_cases hn : n < chart.nodes.length
  · obtain ⟨node, p, kind, hnode, -, hkind, hlink⟩ := exists_place h hn
    have hnk : chart.kind n = node.kind := by rw [Chart.kind, hnode]; rfl
    rw [hnk] at hk
    rcases hlink.kind with hsame | ⟨depth', old, defaults', -, hnew, hle, hlt⟩
    · -- a history kind found for a place has no defaults yet
      rw [← hsame, hk] at hkind
      have hnil : defaults = [] := by
        rw [kindOf] at hkind
        split at hkind
        any_goals cases hkind
        · split at hkind
          · cases hkind
          · cases hkind
            rfl
        · obtain ⟨j, -, hj⟩ := Outcome.map_eq_ok.mp hkind
          cases hj
      rw [hnil]
      simp
    · rw [hk] at hnew
      cases hnew
      rw [hlength]
      exact ⟨hle, hlt⟩
  · rw [kind_of_not_lt hn] at hk
    cases hk

/-- The root of a compiled chart has no parent, for parents come first. -/
theorem parent?_root (h : ofDocument m = .ok chart) :
  chart.parent? root = none
  := by
  by_contra hne
  obtain ⟨q, hq⟩ := Option.ne_none_iff_exists'.mp hne
  obtain ⟨p, hp, hq⟩ := (parent?_eq_some_iff h).mp hq
  rw [parent_root_of_places hp] at hq
  cases hq

/-- The nodes between a node and its child descend from the node. -/
theorem exists_parent_between (h : ofDocument m = .ok chart) {n q k : Nat}
    (hq : chart.parent? n = some q) (hqk : q < k) (hkn : k < n) :
  ∃ p, chart.parent? k = some p ∧ q ≤ p
  := by
  obtain ⟨p, hp, hq⟩ := (parent?_eq_some_iff h).mp hq
  obtain ⟨hn, -⟩ := List.getElem?_eq_some_iff.mp hp
  have hk : (places m)[k]? = some (places m)[k] := List.getElem?_eq_getElem (by omega)
  obtain ⟨q', hq', hle⟩ := parent_le_of_mem_layOut m.root (mem_zipIdx_places.mpr hp)
    (mem_zipIdx_places.mpr hk) hq (by omega) hqk hkn
  exact ⟨q', (parent?_eq_some_iff h).mpr ⟨_, hk, hq'⟩, hle⟩

/-- The children of a compiled node are the nodes with this parent. -/
theorem mem_children_iff_parent? (h : ofDocument m = .ok chart) {n c : Nat} :
  c ∈ chart.children n ↔ chart.parent? c = some n
  := by
  rw [mem_children_iff h, parent?_eq_some_iff h]
  constructor
  · rintro ⟨p, hp, hc⟩
    exact (mem_children_of_places hp).mp hc
  · rintro ⟨p, hp, hq⟩
    obtain ⟨hc, -⟩ := List.getElem?_eq_some_iff.mp hp
    have hlt := parent_lt_of_places hp hq
    have hn : (places m)[n]? = some (places m)[n] := List.getElem?_eq_getElem (by omega)
    exact ⟨_, hn, (mem_children_of_places hn).mpr ⟨p, hp, hq⟩⟩

/-- The children of a compiled node stand in document order. -/
theorem children_increasing_of_ofDocument (h : ofDocument m = .ok chart) (n : Nat) :
  (chart.children n).Pairwise (· < ·)
  := by
  by_cases hn : n < chart.nodes.length
  · obtain ⟨node, p, kind, hnode, hp, -, hlink⟩ := exists_place h hn
    rw [Chart.children, hnode, Option.map_some, Option.getD_some, hlink.children]
    apply children_increasing_of_mem_layOut m.root (List.mem_of_getElem? hp)
  · rw [Chart.children, node?_eq_none hn]
    apply List.Pairwise.nil

/-- The root of a compiled chart is no history node, for these have parents. -/
theorem isHistory_root (h : ofDocument m = .ok chart) (hpos : root < chart.nodes.length) :
  (chart.kind root).isHistory = false
  := by
  obtain ⟨p, kind, hp, hkind, hhistory, -⟩ := exists_kind h hpos
  rw [hhistory]
  cases kind with
  | history depth defaults =>
    obtain ⟨-, hparent, -⟩ := declaresHistory_of_kindOf hkind
    exact absurd (parent_root_of_places hp) hparent
  | _ => rfl

/-- Every compiled chart is well formed. -/
theorem wellFormed_of_ofDocument (h : ofDocument m = .ok chart) :
  chart.WellFormed
  := by
  obtain ⟨hlength, -, count, horders⟩ := exists_links h
  have hpos : root < chart.nodes.length := by
    rw [hlength]
    apply places_ne_nil m
  constructor
  case root_lt => exact hpos
  case parent_root => exact parent?_root h
  case exists_parent =>
    intro n hn hne
    rw [hlength] at hn
    rcases parent_of_places (List.getElem?_eq_getElem hn) with ⟨hroot, -⟩ | ⟨q, hq, -⟩
    · exact absurd hroot hne
    · exact ⟨q, (parent?_eq_some_iff h).mpr ⟨_, List.getElem?_eq_getElem hn, hq⟩⟩
  case parent_lt =>
    intro n q hq
    obtain ⟨p, hp, hq⟩ := (parent?_eq_some_iff h).mp hq
    exact parent_lt_of_places hp hq
  case parent_le => exact exists_parent_between h
  case mem_children => exact mem_children_iff_parent? h
  case children_increasing => exact children_increasing_of_ofDocument h
  case initial => exact initial_of_ofDocument h
  case inner => exact inner_of_ofDocument h
  case root_kind => exact isHistory_root h hpos
  case default_lt =>
    intro n depth defaults x hk
    exact (defaults_of_ofDocument h hk).2 x
  case defaults_length =>
    intro n depth defaults hk
    exact (defaults_of_ofDocument h hk).1
  case source =>
    intro n t ht
    exact (leaves_of_ofDocument h ht).1
  case target_lt =>
    intro n t x ht
    exact (leaves_of_ofDocument h ht).2 x
  case orders =>
    rw [horders]
    exact List.pairwise_lt_range'

end Statechart.Chart
