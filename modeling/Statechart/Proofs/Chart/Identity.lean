import Mathlib.Data.List.Nodup
import Statechart.Proofs.Chart.WellFormed

/-!
# Ids of nodes and invocations

A compiled chart has no two nodes of one id (`eq_of_nodeId`) and no two invocations of one id, so
that each invocation is found by its own (`invocation?_of_mem`).
-/

namespace Statechart.Chart

variable {document : Document.Machine} {chart : Chart}

theorem nodup_of_repeatedId {seen ids : List String} (h : repeatedId? seen ids = none) :
  ids.Nodup ∧ ∀ id ∈ ids, id ∉ seen
  := by
  induction ids generalizing seen with
  | nil => exact ⟨List.nodup_nil, by simp⟩
  | cons id ids ih =>
    rw [repeatedId?] at h
    split at h
    · cases h
    · next hid =>
      rw [List.contains_iff_mem] at hid
      obtain ⟨hnodup, hfresh⟩ := ih h
      constructor
      · apply List.nodup_cons.mpr ⟨_, hnodup⟩
        exact fun hmem => hfresh id hmem List.mem_cons_self
      · intro other hmem hseen
        rcases List.mem_cons.mp hmem with rfl | hmem
        · apply hid hseen
        · apply hfresh other hmem (List.mem_cons_of_mem id hseen)

/-- A linked node keeps the id, the key and the path of its place. -/
theorem named_of_linked {ps : List Place} {index order : Nat} {taken : List String} {p : Place}
    {kind : Kind} {n : Node} (h : linked ps index order taken p kind = .ok n) :
  n.id = p.node.id ∧ n.key = p.node.key ∧ n.path = p.node.path
  := by
  rw [linked] at h
  obtain ⟨ts, -, h⟩ := Outcome.bind_eq_ok.mp h
  dsimp only at h
  split at h
  · split at h
    · obtain ⟨target, -, h⟩ := Outcome.bind_eq_ok.mp h
      cases h
      exact ⟨rfl, rfl, rfl⟩
    · cases h
      exact ⟨rfl, rfl, rfl⟩
  · cases h
    exact ⟨rfl, rfl, rfl⟩

section

variable {α : Type} {f : Node → α}
  (hf : ∀ {ps index order taken p kind n}, linked ps index order taken p kind = .ok n →
    f n = f p.node)

include hf

/-- What linking does not touch the linked nodes have from their places. -/
theorem map_of_linkAll {ps : List Place} {index order : Nat} {taken : List String}
    {pks : List (Place × Kind)} {nodes : List Node}
    (h : linkAll ps index order taken pks = .ok nodes) :
  nodes.map f = (pks.map Prod.fst).map (fun p => f p.node)
  := by
  induction pks generalizing index order taken nodes with
  | nil =>
    cases h
    rfl
  | cons pk pks ih =>
    obtain ⟨p, kind⟩ := pk
    rw [linkAll] at h
    obtain ⟨n, hn, h⟩ := Outcome.bind_eq_ok.mp h
    obtain ⟨others, hothers, h⟩ := Outcome.bind_eq_ok.mp h
    cases h
    rw [List.map_cons, ih hothers, hf hn]
    rfl

theorem map_of_ofDocument (h : ofDocument document = .ok chart) :
  chart.nodes.map f = (places document).map (fun p => f p.node)
  := by
  obtain ⟨pks, hpks, hnodes⟩ := exists_linkAll h
  rw [map_of_linkAll hf hnodes, hpks]

end

theorem nodup_ids (h : ofDocument document = .ok chart) :
  (chart.nodes.map Node.id).Nodup
  := by
  rw [map_of_ofDocument (fun hlinked => (named_of_linked hlinked).1) h]
  unfold ofDocument at h
  split at h
  · cases h
  dsimp only at h
  split at h
  · cases h
  · next hnone =>
    cases hrepeated : repeatedId? [] ((places document).map (fun p => p.node.id)) with
    | none => apply (nodup_of_repeatedId hrepeated).1
    | some id => exact absurd hrepeated (hnone id)

/-- Nodes of one id are the same. -/
theorem eq_of_nodeId (h : ofDocument document = .ok chart) {n k : Nat}
    (hn : n < chart.nodes.length) (hk : k < chart.nodes.length)
    (heq : chart.nodeId n = chart.nodeId k) :
  n = k
  := by
  rw [nodeId, nodeId, node?, node?, List.getElem?_eq_getElem hn, List.getElem?_eq_getElem hk]
    at heq
  have hn' : n < (chart.nodes.map Node.id).length := by rwa [List.length_map]
  apply (List.getElem?_inj hn' (nodup_ids h)).mp
  rw [List.getElem?_map, List.getElem?_map, List.getElem?_eq_getElem hn,
    List.getElem?_eq_getElem hk]
  exact congrArg some heq

/-! ### Ids of invocations -/

/-- A state whose transitions are found declares invocations of different ids, none of which is
taken. -/
theorem fresh_of_invokeTransitions {ps : List Place} {index owner : Nat} {n : Node}
    {taken : List String} {position : Nat} {is : List Document.Invocation} {ts : List Transition}
    (h : invokeTransitions ps index n taken position is = .ok ts) :
  ((invocationsOf owner n.id position is).map Invocation.id).Nodup ∧
    ∀ id ∈ (invocationsOf owner n.id position is).map Invocation.id, id ∉ taken
  := by
  induction is generalizing taken position ts with
  | nil => exact ⟨List.nodup_nil, by simp [invocationsOf]⟩
  | cons i rest ih =>
    rw [invokeTransitions] at h
    split at h
    · cases h
    · next hid =>
      rw [List.contains_iff_mem] at hid
      obtain ⟨done, -, h⟩ := Outcome.bind_eq_ok.mp h
      obtain ⟨failed, -, h⟩ := Outcome.bind_eq_ok.mp h
      obtain ⟨others, hothers, -⟩ := Outcome.bind_eq_ok.mp h
      obtain ⟨hnodup, hfresh⟩ := ih hothers
      rw [invocationsOf, List.map_cons]
      constructor
      · exact List.nodup_cons.mpr ⟨fun hmem => hfresh _ hmem List.mem_cons_self, hnodup⟩
      · intro other hmem htaken
        rcases List.mem_cons.mp hmem with rfl | hmem
        · exact hid htaken
        · exact hfresh other hmem (List.mem_cons_of_mem _ htaken)

theorem LinkedFrom.fresh {ps : List Place} {index order : Nat} {taken : List String} {p : Place}
    {n : Node} (h : LinkedFrom ps index order taken p n) :
  (n.invocations.map Invocation.id).Nodup ∧ ∀ id ∈ n.invocations.map Invocation.id, id ∉ taken
  := by
  obtain ⟨ts, hts, -⟩ := h.transitions
  rw [transitionsOf] at hts
  obtain ⟨on, -, hts⟩ := Outcome.bind_eq_ok.mp hts
  obtain ⟨after, -, hts⟩ := Outcome.bind_eq_ok.mp hts
  obtain ⟨always, -, hts⟩ := Outcome.bind_eq_ok.mp hts
  obtain ⟨done, -, hts⟩ := Outcome.bind_eq_ok.mp hts
  obtain ⟨invoked, hinvoked, -⟩ := Outcome.bind_eq_ok.mp hts
  rw [h.invocations]
  exact fresh_of_invokeTransitions hinvoked

/-- The invocations of linked nodes have different ids, none of which is taken: each node is
linked while the ids of the nodes before it are taken. -/
theorem fresh_of_linkAll {ps : List Place} {index order : Nat} {taken : List String}
    {pks : List (Place × Kind)} {nodes : List Node}
    (h : linkAll ps index order taken pks = .ok nodes) :
  ((nodes.flatMap Node.invocations).map Invocation.id).Nodup ∧
    ∀ id ∈ (nodes.flatMap Node.invocations).map Invocation.id, id ∉ taken
  := by
  induction pks generalizing index order taken nodes with
  | nil =>
    cases h
    exact ⟨List.nodup_nil, by simp⟩
  | cons pk pks ih =>
    obtain ⟨p, kind⟩ := pk
    rw [linkAll] at h
    obtain ⟨n, hn, h⟩ := Outcome.bind_eq_ok.mp h
    obtain ⟨others, hothers, h⟩ := Outcome.bind_eq_ok.mp h
    cases h
    obtain ⟨hown, hownfresh⟩ := (linkedFrom_of_linked hn).fresh
    obtain ⟨hrest, hrestfresh⟩ := ih hothers
    rw [List.flatMap_cons, List.map_append]
    constructor
    · refine List.nodup_append.mpr ⟨hown, hrest, ?_⟩
      rintro id hid _ hid' rfl
      exact hrestfresh id hid' (List.mem_append_left _ hid)
    · intro id hid htaken
      rcases List.mem_append.mp hid with hid | hid
      · exact hownfresh id hid htaken
      · exact hrestfresh id hid (List.mem_append_right _ htaken)

/-- An invocation of a compiled chart is found by its id. -/
theorem invocation?_of_mem (h : ofDocument document = .ok chart) {i : Invocation}
    (hi : i ∈ chart.nodes.flatMap Node.invocations) :
  chart.invocation? i.id = some i
  := by
  obtain ⟨pks, -, hnodes⟩ := exists_linkAll h
  have hnodup := (fresh_of_linkAll hnodes).1
  cases hfind : chart.invocation? i.id with
  | none =>
    have hnot := List.find?_eq_none.mp hfind i hi
    simp at hnot
  | some j =>
    have hid : j.id = i.id := by simpa using List.find?_some hfind
    rw [List.inj_on_of_nodup_map hnodup (List.mem_of_find?_eq_some hfind) hi hid]

end Statechart.Chart
