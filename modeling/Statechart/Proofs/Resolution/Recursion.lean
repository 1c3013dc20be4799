import Mathlib.Data.Fintype.Pigeonhole
import Mathlib.Order.WellFounded
import Statechart.Proofs.Resolution.Expansion

/-!
# Recursions along history nodes

The nodes that a target stands for, and the nodes that it enters, are given by recursions
without a bound: a history node calls for the nodes that it stands for.  `Returns` tells what
a recursion comes to, if it comes to an end.  Both recursions do so from exactly those nodes
from which no infinite path leads through history nodes (`exists_returns_expansion_iff`,
`exists_returns_entry_iff`), and then `standsFor` and `enterTarget` give their results
(`eq_of_returns_expansion`, `eq_of_returns_entry`).  As long as nothing is recorded, such a
path is a chain of declared defaults that returns to a history node (`exists_endless_iff`).
-/

namespace Statechart

/-- Whether pending calls of a recursion, the first of them first, take one state to another.  A
call changes the state by `body`, and the calls that it makes itself come before the others. -/
inductive Returns {κ σ : Type} (body : κ → σ → List κ × σ) : List κ → σ → σ → Prop where
  | nil {s} : Returns body [] s s
  | call {c cs s s'} (h : Returns body ((body c s).1 ++ cs) (body c s).2 s') :
      Returns body (c :: cs) s s'

namespace Returns

variable {κ σ ι : Type} {body : κ → σ → List κ × σ} {cs cs' : List κ} {c : κ} {s s₁ s' : σ}

theorem append (h : Returns body cs s s₁) (h' : Returns body cs' s₁ s') :
  Returns body (cs ++ cs') s s'
  := by
  induction h with
  | nil => exact h'
  | call h ih =>
    rw [List.cons_append]
    apply Returns.call
    rw [← List.append_assoc]
    apply ih h'

/-- A recursion comes to one end at most. -/
theorem unique (h : Returns body cs s s₁) (h' : Returns body cs s s') :
  s₁ = s'
  := by
  induction h with
  | nil =>
    cases h'
    rfl
  | call h ih =>
    cases h' with
    | call h' => apply ih h'

/-- A call comes to what the calls come to that it makes. -/
theorem single (h : Returns body (body c s).1 (body c s).2 s') :
  Returns body [c] s s'
  := by
  apply Returns.call
  rw [List.append_nil]
  exact h

/-- Calls that return one by one return together. -/
theorem foldl (call : ι → κ) (result : ι → σ → σ) {items : List ι}
    (h : ∀ i ∈ items, ∀ s, Returns body [call i] s (result i s)) (s : σ) :
  Returns body (items.map call) s (items.foldl (fun s i => result i s) s)
  := by
  induction items generalizing s with
  | nil => exact .nil
  | cons i items ih =>
    rw [List.map_cons, ← List.singleton_append]
    apply Returns.append (h i List.mem_cons_self s)
    apply ih (fun j hj => h j (List.mem_cons_of_mem i hj))

end Returns

namespace Chart

/-! ### Paths through history nodes -/

/-- Whether `n` is a history node that stands for `m`. -/
def Follows (chart : Chart) (history : History) (m n : Nat) : Prop :=
  (chart.kind n).isHistory = true ∧ m ∈ chart.landings history n

/-- Whether an infinite path leads through history nodes, from `n` on. -/
def Endless (chart : Chart) (history : History) (n : Nat) : Prop :=
  ∃ path : Nat → Nat, path 0 = n ∧ ∀ i, chart.Follows history (path (i + 1)) (path i)

/-- Whether a history node declares `m` as its default. -/
def Defers (chart : Chart) (n m : Nat) : Prop :=
  m ∈ (chart.kind n).defaults

/-- Whether what is recorded are states, not history nodes. -/
def RecordsStates (chart : Chart) (history : History) : Prop :=
  ∀ h nodes, history.lookup h = some nodes → ∀ x ∈ nodes, (chart.kind x).isHistory = false

/-- Whether a bound of the length of a path suffices from a node on: the path ends at a state
before the bound is used up. -/
def Suffices (chart : Chart) (history : History) : Nat → Nat → Prop
  | 0, _ => False
  | fuel + 1, n =>
    (chart.kind n).isHistory = true → ∀ m ∈ chart.landings history n,
      chart.Suffices history fuel m

variable {chart : Chart} {history : History} {s s' : NodeSet} {found found' : List Nat}
  {fuel n m k a d : Nat}

theorem acc_iff_not_endless :
  Acc (chart.Follows history) n ↔ ¬ chart.Endless history n
  := by
  rw [Endless, ← not_acc_iff_exists_descending_chain, not_not]

theorem acc_of_plain (hn : (chart.kind n).isHistory = false) :
  Acc (chart.Follows history) n
  := by
  constructor
  rintro m ⟨hhistory, -⟩
  rw [hn] at hhistory
  cases hhistory

theorem not_transGen_of_acc {α : Type} {r : α → α → Prop} {x : α} (h : Acc r x) :
  ¬ Relation.TransGen r x x
  := by
  intro hx
  apply not_acc_iff_exists_descending_chain.mpr ⟨fun _ => x, rfl, fun _ => hx⟩ h.transGen

theorem reflTransGen_of_leads (h : chart.Leads history n k) :
  Relation.ReflTransGen (chart.Follows history) k n
  := by
  induction h with
  | refl => exact .refl
  | step hn hm hrest ih => exact ih.tail ⟨hn, hm⟩

/-- A path that does not come back to a history node has no more history nodes than there are. -/
theorem suffices_of_acc (hacc : Acc (chart.Follows history) n) (nodes : Finset Nat)
    (hnodes : ∀ k, chart.Leads history n k → (chart.kind k).isHistory = true → k ∈ nodes)
    (hfuel : nodes.card < fuel) :
  chart.Suffices history fuel n
  := by
  induction fuel generalizing n nodes with
  | zero => cases hfuel
  | succ fuel ih =>
    intro hn m hm
    apply ih (hacc.inv ⟨hn, hm⟩) (nodes.erase n)
    · intro k hk hhistory
      apply Finset.mem_erase.mpr ⟨_, hnodes k (.step hn hm hk) hhistory⟩
      -- else the path would come back to `n`
      rintro rfl
      apply not_transGen_of_acc hacc
      exact .tail' (reflTransGen_of_leads hk) ⟨hn, hm⟩
    · have hcard := Finset.card_erase_lt_of_mem (hnodes n .refl hn)
      omega

/-- The number of nodes suffices as a bound where no infinite path begins. -/
theorem WellFormed.suffices_depthBound (wf : chart.WellFormed)
    (hacc : Acc (chart.Follows history) n) :
  chart.Suffices history chart.depthBound n
  := by
  apply suffices_of_acc hacc ((Finset.range chart.nodes.length).erase root)
  · intro k _ hhistory
    apply Finset.mem_erase.mpr
    exact ⟨wf.ne_root_of_isHistory hhistory,
      Finset.mem_range.mpr (lt_length_of_isHistory hhistory)⟩
  · have hcard := Finset.card_erase_lt_of_mem (Finset.mem_range.mpr wf.root_lt)
    rwa [Finset.card_range] at hcard

/-! ### Expansion of targets -/

/-- What the expansion of a node does: a history node is expanded into the nodes that it stands
for, and any other node is found, once. -/
def expansion (chart : Chart) (history : History) (n : Nat) (found : List Nat) :
    List Nat × List Nat :=
  if (chart.kind n).isHistory then (chart.landings history n, found)
  else ([], if found.contains n then found else found ++ [n])

/-- The found nodes with further ones, each once. -/
def gathered (found nodes : List Nat) : List Nat :=
  nodes.foldl (fun found n => if found.contains n then found else found ++ [n]) found

theorem gathered_append (found nodes nodes' : List Nat) :
  gathered found (nodes ++ nodes') = gathered (gathered found nodes) nodes'
  := List.foldl_append

theorem gathered_flatMap (f : Nat → List Nat) (nodes found : List Nat) :
  gathered found (nodes.flatMap f) = nodes.foldl (fun found n => gathered found (f n)) found
  := by
  induction nodes generalizing found with
  | nil => rfl
  | cons n nodes ih => rw [List.flatMap_cons, gathered_append, ih, List.foldl_cons]

/-- To gather nodes one by one removes duplicates. -/
theorem gathered_nil (nodes : List Nat) :
  gathered [] nodes = nodes.eraseDups
  := by
  have hloop : ∀ found : List Nat,
      gathered found.reverse nodes = List.eraseDupsBy.loop (· == ·) nodes found := by
    induction nodes with
    | nil => exact fun found => rfl
    | cons n nodes ih =>
      intro found
      rw [gathered, List.foldl_cons, ← gathered, List.eraseDupsBy.loop, List.contains_reverse,
        List.any_beq]
      cases found.contains n with
      | true => apply ih found
      | false =>
        rw [if_neg Bool.false_ne_true, ← List.reverse_cons]
        apply ih (n :: found)
  apply hloop []

theorem returns_expansion_of_suffices (h : chart.Suffices history fuel n) (found : List Nat) :
  Returns (chart.expansion history) [n] found (gathered found (chart.standsFor history fuel n))
  := by
  induction fuel generalizing n found with
  | zero => cases h
  | succ fuel ih =>
    apply Returns.single
    rw [expansion]
    cases hn : (chart.kind n).isHistory with
    | false =>
      rw [WellFormed.standsFor_of_plain hn]
      exact .nil
    | true =>
      rw [standsFor_of_history hn, gathered_flatMap, if_pos rfl]
      have hlandings := Returns.foldl (fun m => m)
        (fun m found => gathered found (chart.standsFor history fuel m))
        (fun m hm found => ih (h hn m hm) found) found
      rwa [List.map_id'] at hlandings

/-- No infinite path leads from a node whose expansion returns. -/
theorem acc_of_returns_expansion {nodes : List Nat}
    (h : Returns (chart.expansion history) nodes found found') :
  ∀ n ∈ nodes, Acc (chart.Follows history) n
  := by
  induction h with
  | nil => simp
  | @call n nodes found found' h ih =>
    have hnodes : ∀ m ∈ nodes, Acc (chart.Follows history) m :=
      fun m hm => ih m (List.mem_append_right _ hm)
    apply List.forall_mem_cons.mpr ⟨_, hnodes⟩
    cases hn : (chart.kind n).isHistory with
    | false => apply acc_of_plain hn
    | true =>
      constructor
      rintro m ⟨-, hm⟩
      apply ih m (List.mem_append_left _ _)
      rwa [expansion, if_pos hn]

/-! ### Nodes to enter -/

/-- A call of the recursion that finds the nodes to enter. -/
inductive Call where
  /-- A node is added with its descendants. -/
  | node (n : Nat)
  /-- A region is added with its descendants, unless a node below it is there. -/
  | region (n : Nat)
  /-- The ancestors of a node below a domain are added. -/
  | climb (domain n : Nat)
  /-- An ancestor is added, and its regions if it is parallel. -/
  | ancestor (n : Nat)

/-- What a call does: the calls that it makes, and the nodes to enter when it makes them. -/
def entry (chart : Chart) (history : History) : Call → NodeSet → List Call × NodeSet
  | .node n, s =>
    match chart.kind n with
    | .history .. =>
      ((chart.landings history n).map .node ++
        (chart.landings history n).map (.climb ((chart.parent? n).getD n)), s)
    | .compound initial => ([.node initial], NodeSet.insert n s)
    | .parallel => ((chart.regions n).map .region, NodeSet.insert n s)
    | _ => ([], NodeSet.insert n s)
  | .region n, s => if chart.holdsBelow s n then ([], s) else ([.node n], s)
  | .climb domain n, s => (((chart.ancestors n).takeWhile (· ≠ domain)).map .ancestor, s)
  | .ancestor n, s =>
    if (chart.kind n).isParallel then ((chart.regions n).map .region, NodeSet.insert n s)
    else ([], NodeSet.insert n s)

theorem entry_of_history (hn : (chart.kind n).isHistory = true) (s : NodeSet) :
  chart.entry history (.node n) s =
    ((chart.landings history n).map .node ++
      (chart.landings history n).map (.climb ((chart.parent? n).getD n)), s)
  := by
  rw [entry]
  cases hkind : chart.kind n with
  | history depth defaults => rfl
  | _ =>
    rw [hkind] at hn
    cases hn

/-- Regions are completed one after the other. -/
theorem returns_completeRegions {add : Nat → NodeSet → NodeSet} {regions : List Nat}
    (h : ∀ r ∈ regions, ∀ s, Returns (chart.entry history) [.node r] s (add r s)) (s : NodeSet) :
  Returns (chart.entry history) (regions.map .region) s (chart.completeRegions add regions s)
  := by
  rw [completeRegions]
  apply Returns.foldl _ (fun r s => if chart.holdsBelow s r then s else add r s)
  intro r hr s
  apply Returns.single
  rw [entry]
  cases hheld : chart.holdsBelow s r with
  | true => exact .nil
  | false => apply h r hr s

namespace WellFormed

variable (wf : chart.WellFormed)

include wf

/-- The recursion adds a state with its default descendants. -/
theorem returns_descend (hn : (chart.kind n).isHistory = false) (hpos : 0 < fuel)
    (hfuel : chart.nodes.length ≤ fuel + n) (s : NodeSet) :
  Returns (chart.entry history) [.node n] s (chart.descend fuel n s)
  := by
  induction fuel generalizing n s with
  | zero => cases hpos
  | succ fuel ih =>
    have hchild : ∀ c, chart.parent? c = some n → (chart.kind c).isHistory = false → ∀ s,
        Returns (chart.entry history) [.node c] s (chart.descend fuel c s) := by
      intro c hc hkc s
      have hlt := wf.parent_lt hc
      have hclt := lt_of_parent hc
      apply ih hkc (by omega) (by omega)
    apply Returns.single
    rw [entry, descend]
    cases hkind : chart.kind n with
    | atomic => exact .nil
    | final data => exact .nil
    | compound initial =>
      obtain ⟨hi, hki⟩ := wf.initial hkind
      apply hchild initial (wf.parent_of_mem_children hi) hki
    | parallel =>
      apply returns_completeRegions
      intro r hr s
      apply hchild r (parent_of_mem_regions wf hr) (mem_regions.mp hr).2
    | history depth defaults =>
      rw [hkind] at hn
      cases hn

theorem returns_addDefaults (hn : (chart.kind n).isHistory = false) (s : NodeSet) :
  Returns (chart.entry history) [.node n] s (chart.addDefaults n s)
  := by
  apply wf.returns_descend hn
  · apply Nat.lt_of_le_of_lt (Nat.zero_le root) wf.root_lt
  · apply Nat.le_add_right

theorem returns_addAncestor (a : Nat) (s : NodeSet) :
  Returns (chart.entry history) [.ancestor a] s (chart.addAncestor s a)
  := by
  apply Returns.single
  rw [entry, addAncestor]
  cases hkind : (chart.kind a).isParallel with
  | false => exact .nil
  | true =>
    apply returns_completeRegions
    intro r hr s
    apply wf.returns_addDefaults (mem_regions.mp hr).2

theorem returns_ascend (d n : Nat) (s : NodeSet) :
  Returns (chart.entry history) [.climb d n] s (chart.ascend d n s)
  := by
  apply Returns.single
  rw [entry, ascend]
  apply Returns.foldl _ (fun a s => chart.addAncestor s a)
  exact fun a _ s => wf.returns_addAncestor a s

theorem returns_entry_of_suffices (h : chart.Suffices history fuel n) (s : NodeSet) :
  Returns (chart.entry history) [.node n] s (chart.enterTarget history fuel n s)
  := by
  induction fuel generalizing n s with
  | zero => cases h
  | succ fuel ih =>
    cases hn : (chart.kind n).isHistory with
    | false =>
      rw [enterTarget_of_plain hn]
      apply wf.returns_addDefaults hn
    | true =>
      obtain ⟨p, hp⟩ := wf.exists_parent_of_isHistory hn
      apply Returns.single
      rw [entry_of_history hn, enterTarget_of_history hn hp, hp]
      apply Returns.append
      · apply Returns.foldl _ (fun m s => chart.enterTarget history fuel m s)
        exact fun m hm s => ih (h hn m hm) s
      · apply Returns.foldl _ (fun m s => chart.ascend p m s)
        exact fun m _ s => wf.returns_ascend p m s

end WellFormed

/-- No infinite path leads from a node whose nodes to enter are found. -/
theorem acc_of_returns_entry {calls : List Call} (h : Returns (chart.entry history) calls s s') :
  ∀ n, .node n ∈ calls → Acc (chart.Follows history) n
  := by
  induction h with
  | nil => simp
  | @call c calls s s' h ih =>
    intro n hmem
    rcases List.mem_cons.mp hmem with rfl | hmem
    · cases hn : (chart.kind n).isHistory with
      | false => apply acc_of_plain hn
      | true =>
        constructor
        rintro m ⟨-, hm⟩
        apply ih m (List.mem_append_left _ _)
        rw [entry_of_history hn]
        apply List.mem_append_left _ (List.mem_map_of_mem hm)
    · apply ih n (List.mem_append_right _ hmem)

/-! ### Default paths -/

/-- A declared default is what a history node stands for as long as nothing is recorded. -/
theorem follows_of_defers (h : chart.Defers n m) :
  chart.Follows [] m n
  := by
  rw [Defers] at h
  rw [Follows, landings]
  cases hk : chart.kind n with
  | history depth defaults =>
    rw [hk, Kind.defaults] at h
    use rfl
    dsimp only
    rw [restored, List.lookup_nil, historyDefault, if_pos]
    · exact h
    · rw [Bool.not_eq_true', List.isEmpty_eq_false_iff]
      apply List.ne_nil_of_mem h
  | _ =>
    rw [hk] at h
    cases h

theorem not_acc_of_transGen (h : Relation.TransGen chart.Defers n n) :
  ¬ Acc (chart.Follows []) n
  := by
  intro hacc
  apply not_transGen_of_acc hacc
  apply Relation.transGen_swap.mp
  apply Relation.TransGen.mono (fun _ _ => follows_of_defers) _ _ h

/-- What is recorded ends a path, so that an infinite path through history nodes does not come
from what is recorded. -/
theorem acc_of_recordsStates (hstates : chart.RecordsStates history)
    (hacc : Acc (chart.Follows []) n) :
  Acc (chart.Follows history) n
  := by
  induction hacc with
  | intro n _ ih =>
    constructor
    rintro m ⟨hn, hm⟩
    cases hk : chart.kind n with
    | history depth defaults =>
      cases hlookup : history.lookup n with
      | none =>
        have hsame : List.lookup n ([] : History) = history.lookup n := by
          rw [hlookup]
          rfl
        apply ih m
        use hn
        rwa [landings_of_lookup hk hsame]
      | some nodes =>
        rw [landings_of_lookup_eq_some hk hlookup] at hm
        apply acc_of_plain (hstates n nodes hlookup m hm)
    | _ =>
      rw [hk] at hn
      cases hn

namespace WellFormed

variable (wf : chart.WellFormed)

include wf

/-- Only a declared default leads from a history node to a history node. -/
theorem defers_of_follows (h : chart.Follows [] m n) (hm : (chart.kind m).isHistory = true) :
  chart.Defers n m
  := by
  obtain ⟨hn, h⟩ := h
  rw [landings] at h
  rw [Defers]
  cases hk : chart.kind n with
  | history depth defaults =>
    obtain ⟨p, hp⟩ := wf.exists_parent_of_isHistory hn
    rw [hk] at h
    dsimp only at h
    rw [restored, List.lookup_nil, historyDefault, hp] at h
    dsimp only at h
    split at h
    · exact h
    · -- the default children of the parent are states
      split at h
      · next initial hinitial =>
        rw [List.mem_singleton.mp h, (wf.initial hinitial).2] at hm
        cases hm
      · rw [(mem_regions.mp h).2] at hm
        cases hm
  | _ =>
    rw [hk] at hn
    cases hn

/-- Since the nodes are finitely many, an infinite path of defaults returns to a history
node. -/
theorem exists_endless_iff :
  (∃ n, chart.Endless [] n) ↔ ∃ k, Relation.TransGen chart.Defers k k
  := by
  constructor
  · rintro ⟨n, path, -, hpath⟩
    have hdefers : ∀ i, Relation.TransGen chart.Defers (path i) (path (i + 1)) :=
      fun i => .single (wf.defers_of_follows (hpath i) (hpath (i + 1)).1)
    have hlt : ∀ i, path i < chart.nodes.length := fun i => lt_length_of_isHistory (hpath i).1
    have hcycle : ∀ i j, i < j → path i = path j → ∃ k, Relation.TransGen chart.Defers k k := by
      intro i j hij heq
      use path i
      have h := Nat.rel_of_forall_rel_succ_of_lt (Relation.TransGen chart.Defers) hdefers hij
      rwa [← heq] at h
    obtain ⟨i, j, hne, heq⟩ :=
      Finite.exists_ne_map_eq_of_infinite (fun i => (⟨path i, hlt i⟩ : Fin chart.nodes.length))
    rw [Fin.mk.injEq] at heq
    rcases Nat.lt_or_gt_of_ne hne with hij | hij
    · apply hcycle i j hij heq
    · apply hcycle j i hij heq.symm
  · rintro ⟨k, hk⟩
    use k
    by_contra hendless
    apply not_acc_of_transGen hk (acc_iff_not_endless.mpr hendless)

/-! ### Results -/

/-- The expansion of a node returns exactly if no infinite path leads from it through history
nodes. -/
theorem exists_returns_expansion_iff :
  (∃ found', Returns (chart.expansion history) [n] found found') ↔ ¬ chart.Endless history n
  := by
  rw [← acc_iff_not_endless]
  constructor
  · rintro ⟨found', h⟩
    apply acc_of_returns_expansion h n (List.mem_singleton_self n)
  · intro hacc
    exact ⟨_, returns_expansion_of_suffices (wf.suffices_depthBound hacc) found⟩

/-- The nodes to enter for a node are found exactly if no infinite path leads from it through
history nodes. -/
theorem exists_returns_entry_iff :
  (∃ s', Returns (chart.entry history) [.node n] s s') ↔ ¬ chart.Endless history n
  := by
  rw [← acc_iff_not_endless]
  constructor
  · rintro ⟨s', h⟩
    apply acc_of_returns_entry h n (List.mem_singleton_self _)
  · intro hacc
    exact ⟨_, wf.returns_entry_of_suffices (wf.suffices_depthBound hacc) s⟩

/-- If the expansion of some nodes returns, it finds what they stand for. -/
theorem eq_of_returns_expansion {nodes : List Nat}
    (h : Returns (chart.expansion history) nodes [] found) :
  found = (nodes.flatMap (chart.standsFor history chart.depthBound)).eraseDups
  := by
  have hacc := acc_of_returns_expansion h
  have hresult := Returns.foldl (fun n => n)
    (fun n found => gathered found (chart.standsFor history chart.depthBound n))
    (fun n hn found => returns_expansion_of_suffices (wf.suffices_depthBound (hacc n hn)) found) []
  rw [List.map_id', ← gathered_flatMap, gathered_nil] at hresult
  apply h.unique hresult

/-- If the nodes to enter for a node are found, they are those that entering it as a target
gives. -/
theorem eq_of_returns_entry (h : Returns (chart.entry history) [.node n] s s') :
  s' = chart.enterTarget history chart.depthBound n s
  := by
  have hacc := acc_of_returns_entry h n (List.mem_singleton_self _)
  apply h.unique (wf.returns_entry_of_suffices (wf.suffices_depthBound hacc) s)

end WellFormed

end Chart

end Statechart
