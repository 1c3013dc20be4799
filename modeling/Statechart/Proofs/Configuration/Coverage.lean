import Statechart.Proofs.Chart.Path
import Statechart.Proofs.Configuration.Address
import Statechart.Snapshot

/-!
# Covered paths

The address of a legal configuration covers the path of a node exactly if the node is active
(`covers_dottedPath_iff`): where keys are plain and those of the children of each node distinct,
asking a value for a path and asking a configuration for a node are the same.
-/

namespace Statechart

namespace StateValue

variable {child : StateValue} {own key : String} {keys : List String}

theorem coversKeys_empty_iff :
  (branch []).coversKeys keys = true ↔ keys = []
  := by
  constructor
  · exact eq_nil_of_coversKeys
  · rintro rfl
    exact coversKeys_nil _

theorem coversKeys_single_iff :
  (branch [(own, child)]).coversKeys (key :: keys) = true ↔
    own = key ∧ child.coversKeys keys = true
  := by
  rw [coversKeys_branch_iff]
  by_cases hkey : own = key
  · simp [hkey]
  · simp [hkey, List.lookup_cons, beq_eq_false_iff_ne.mpr (Ne.symm hkey)]

end StateValue

namespace Chart

/-! ### Plain keys -/

/-- Whether the keys of all children are nonempty and without a point. -/
def PlainKeys (chart : Chart) : Prop :=
  ∀ n, ∀ c ∈ chart.children n, chart.key c ≠ "" ∧ '.' ∉ (chart.key c).toList

instance (chart : Chart) : Decidable chart.PlainKeys :=
  decidable_of_iff
    (∀ n ∈ List.range chart.nodes.length, ∀ c ∈ chart.children n,
      chart.key c ≠ "" ∧ '.' ∉ (chart.key c).toList) (by
      constructor
      · intro h n c hc
        by_cases hn : n < chart.nodes.length
        · exact h n (List.mem_range.mpr hn) c hc
        · rw [children, node?_eq_none hn] at hc
          cases hc
      · exact fun h n _ => h n)

variable {chart : Chart} {configuration : NodeSet} {n c x fuel : Nat} {key : String}
  {keys : List String}

/-- The keys on the path of a node are plain. -/
theorem Pathed.plain_of_mem_path (hpaths : chart.Pathed) (wf : chart.WellFormed)
    (hplain : chart.PlainKeys) (hn : n < chart.nodes.length) (hkey : key ∈ chart.path n) :
  key ≠ "" ∧ '.' ∉ key.toList
  := by
  induction n using Nat.strongRecOn with
  | _ n ih =>
    by_cases hroot : n = root
    · rw [hroot, hpaths.path_root] at hkey
      cases hkey
    · obtain ⟨p, hp⟩ := wf.exists_parent hn hroot
      rw [hpaths.path_child hp] at hkey
      rcases List.mem_append.mp hkey with hkey | hkey
      · have hlt := wf.parent_lt hp
        exact ih p hlt (by omega) hkey
      · rw [List.mem_singleton.mp hkey]
        exact hplain p n (wf.mem_children.mpr hp)

/-- The nonempty segments of the dotted path of a node are the keys on its path. -/
theorem Pathed.segments_dottedPath (hpaths : chart.Pathed) (wf : chart.WellFormed)
    (hplain : chart.PlainKeys) (hn : n < chart.nodes.length) :
  (Text.segments '.' (chart.dottedPath n)).filter (· ≠ "") = chart.path n
  := by
  rw [dottedPath]
  exact Text.filter_segments_join fun key hkey => hpaths.plain_of_mem_path wf hplain hn hkey

/-! ### Descent along keys -/

/-- The node that keys lead to from a node, child by child. -/
def descend? (chart : Chart) (n : Nat) (keys : List String) : Option Nat :=
  keys.foldlM chart.child? n

theorem descend?_cons :
  chart.descend? n (key :: keys) = (chart.child? n key).bind (fun c => chart.descend? c keys)
  := List.foldlM_cons

theorem descend?_append {keys' : List String} :
  chart.descend? n (keys ++ keys') = (chart.descend? n keys).bind (chart.descend? · keys')
  := List.foldlM_append

/-- Keys lead downwards. -/
theorem WellFormed.within_of_descend? (wf : chart.WellFormed)
    (h : chart.descend? n keys = some x) :
  chart.Within x n
  := by
  induction keys generalizing n with
  | nil =>
    cases h
    exact within_refl chart x
  | cons key keys ih =>
    rw [descend?_cons] at h
    obtain ⟨c, hc, h⟩ := Option.bind_eq_some_iff.mp h
    have hcn := wf.parent_of_mem_children (child?_eq_some hc).1
    exact wf.within_trans (ih h) (Or.inr (wf.isBelow_of_parent hcn))

/-- The path of a node leads from the root to the node. -/
theorem Pathed.descend?_path (hpaths : chart.Pathed) (wf : chart.WellFormed)
    (hkeys : chart.DistinctKeys) (hn : n < chart.nodes.length) :
  chart.descend? root (chart.path n) = some n
  := by
  induction n using Nat.strongRecOn with
  | _ n ih =>
    by_cases hroot : n = root
    · rw [hroot, hpaths.path_root]
      rfl
    · obtain ⟨p, hp⟩ := wf.exists_parent hn hroot
      have hlt := wf.parent_lt hp
      have hp' := ih p hlt (by omega)
      rw [hpaths.path_child hp, descend?_append, hp', Option.bind_some, descend?_cons,
        hkeys.child?_key (wf.mem_children.mpr hp)]
      rfl

/-! ### Covered keys -/

/-- The addresses of the regions of a node cover the keys that begin with the key of a region and
go on with what the address below the region covers. -/
theorem coversKeys_regionAddresses_iff (hkeys : chart.DistinctKeys) :
  (StateValue.branch (chart.regionAddresses configuration fuel n)).coversKeys (key :: keys) = true ↔
    ∃ r ∈ chart.regions n, chart.key r = key ∧
      (chart.addressBelow configuration fuel r).coversKeys keys = true
  := by
  rw [StateValue.coversKeys_branch_iff]
  constructor
  · rintro ⟨child, hchild, hcovers⟩
    obtain ⟨r, hr, hkey⟩ :=
      exists_region_of_mem_regionAddresses (Association.mem_of_lookup hchild)
    obtain rfl : key = chart.key r := hkey
    rw [lookup_regionAddresses hkeys hr, Option.some.injEq] at hchild
    subst hchild
    exact ⟨r, hr, rfl, hcovers⟩
  · rintro ⟨r, hr, rfl, hcovers⟩
    exact ⟨_, lookup_regionAddresses hkeys hr, hcovers⟩

/-- Keys lead from an active node to an active node if the first of them leads to an active child,
and the others lead on from there. -/
theorem Legal.exists_descend?_cons_iff (legal : chart.Legal configuration)
    (wf : chart.WellFormed) (hkeys : chart.DistinctKeys) :
  (∃ x ∈ configuration, chart.descend? n (key :: keys) = some x) ↔
    ∃ c ∈ configuration, chart.parent? c = some n ∧ chart.key c = key ∧
      ∃ x ∈ configuration, chart.descend? c keys = some x
  := by
  constructor
  · rintro ⟨x, hx, h⟩
    rw [descend?_cons] at h
    obtain ⟨c, hc, h⟩ := Option.bind_eq_some_iff.mp h
    obtain ⟨hmem, hkey⟩ := child?_eq_some hc
    exact ⟨c, legal.mem_of_within wf hx (wf.within_of_descend? h),
      wf.parent_of_mem_children hmem, hkey, x, hx, h⟩
  · rintro ⟨c, -, hcn, rfl, x, hx, h⟩
    refine ⟨x, hx, ?_⟩
    rw [descend?_cons, hkeys.child?_key (wf.mem_children.mpr hcn)]
    exact h

/-- The address below an active node covers the keys that lead to an active node. -/
theorem Legal.coversKeys_addressBelow_iff (legal : chart.Legal configuration)
    (wf : chart.WellFormed) (hkeys : chart.DistinctKeys) (hn : n ∈ configuration)
    (hfuel : chart.nodes.length ≤ fuel + n) :
  (chart.addressBelow configuration fuel n).coversKeys keys = true ↔
    ∃ x ∈ configuration, chart.descend? n keys = some x
  := by
  induction fuel generalizing n keys with
  | zero =>
    have := legal.lt_length hn
    omega
  | succ fuel ih =>
    cases keys with
    | nil => exact iff_of_true (StateValue.coversKeys_nil _) ⟨n, hn, rfl⟩
    | cons key keys =>
      rw [legal.exists_descend?_cons_iff wf hkeys]
      have hbelow : ∀ {c}, c ∈ configuration → chart.parent? c = some n → ∀ {keys},
          (chart.addressBelow configuration fuel c).coversKeys keys = true ↔
            ∃ x ∈ configuration, chart.descend? c keys = some x := by
        intro c hc hcn keys
        have := wf.parent_lt hcn
        exact ih hc (by omega)
      rcases Kind.cases_of_not_isHistory (legal.not_history hn) with hk | hk | hk
      · rw [addressBelow_of_isAtomic hk, StateValue.coversKeys_empty_iff]
        refine iff_of_false (List.cons_ne_nil _ _) ?_
        rintro ⟨c, -, hcn, -⟩
        exact wf.not_isBelow_of_isAtomic hk c (wf.isBelow_of_parent hcn)
      · obtain ⟨c, ⟨hc, hcn⟩, hunique⟩ := legal.child hn hk
        have hnamed : (∃ c ∈ configuration, chart.parent? c = some n ∧ chart.key c = key ∧
              ∃ x ∈ configuration, chart.descend? c keys = some x) ↔
            chart.key c = key ∧
              (chart.addressBelow configuration fuel c).coversKeys keys = true := by
          rw [hbelow hc hcn]
          constructor
          · rintro ⟨c', hc', hcn', hx⟩
            obtain rfl := hunique c' ⟨hc', hcn'⟩
            exact hx
          · exact fun hx => ⟨c, hc, hcn, hx⟩
        rw [hnamed, addressBelow_of_isCompound wf legal hk hc hcn]
        split
        · next hleaf =>
          -- a leaf covers nothing below its key, just as the empty branch of an atomic node
          rw [StateValue.coversKeys_leaf_iff, addressBelow_of_isAtomic hleaf,
            StateValue.coversKeys_empty_iff, and_comm]
        · rw [StateValue.coversKeys_single_iff]
      · rw [addressBelow_of_isParallel hk, coversKeys_regionAddresses_iff hkeys]
        constructor
        · rintro ⟨r, hr, hkey, hcovers⟩
          have hrn := parent_of_mem_regions wf hr
          have hactive := legal.regions_mem hn hk hr
          exact ⟨r, hactive, hrn, hkey, (hbelow hactive hrn).mp hcovers⟩
        · rintro ⟨c, hc, hcn, hkey, hx⟩
          exact ⟨c, mem_regions.mpr ⟨wf.mem_children.mpr hcn, legal.not_history hc⟩, hkey,
            (hbelow hc hcn).mpr hx⟩

/-- The address of a legal configuration covers the keys that lead to an active node. -/
theorem Legal.coversKeys_address_iff (legal : chart.Legal configuration) (wf : chart.WellFormed)
    (hkeys : chart.DistinctKeys) :
  (chart.address configuration).coversKeys keys = true ↔
    ∃ x ∈ configuration, chart.descend? root keys = some x
  := legal.coversKeys_addressBelow_iff wf hkeys legal.root_mem (Nat.le_add_right _ _)

/-- Let the keys of a compiled chart be plain, and let the children of each node have distinct
keys.  The address of a legal configuration covers the dotted path of a node that is no history
node exactly if the node is active, and a snapshot with this address says the same of the path and
of the node. -/
theorem covers_dottedPath_iff {document : Document.Machine} (h : ofDocument document = .ok chart)
    (hkeys : chart.DistinctKeys) (hplain : chart.PlainKeys) (legal : chart.Legal configuration)
    (hn : n < chart.nodes.length) :
  ((chart.address configuration).covers (chart.dottedPath n) = true ↔ n ∈ configuration) ∧
    ∀ s : Snapshot, s.configuration = configuration → s.value = chart.address configuration →
      s.covers (chart.dottedPath n) = s.isActive n
  := by
  have wf := wellFormed_of_ofDocument h
  have hpaths := pathed_of_ofDocument h
  have hcovers : (chart.address configuration).covers (chart.dottedPath n) = true ↔
      n ∈ configuration := by
    rw [StateValue.covers, hpaths.segments_dottedPath wf hplain hn,
      legal.coversKeys_address_iff wf hkeys, hpaths.descend?_path wf hkeys hn]
    constructor
    · rintro ⟨x, hx, heq⟩
      cases heq
      exact hx
    · exact fun hn => ⟨n, hn, rfl⟩
  use hcovers
  intro s hconfiguration hvalue
  rw [Bool.eq_iff_iff, Snapshot.covers, Snapshot.isActive, List.contains_iff_mem, hvalue,
    hconfiguration]
  exact hcovers

/-- A machine over a parallel node with an atomic region and one that remembers its states. -/
def branched : Document.Machine where
  root := .node { initial := some "p" }
    [("p", .node { type := some .parallel }
      [("left", .node {} []),
       ("right", .node { initial := some "x" }
        [("x", .node {} [("a", .node {} []), ("b", .node {} [])]),
         ("past", .node { history := some .deep } [])])]),
     ("end", .node { type := some .final } [])]

theorem covers_dottedPath_iff_branched :
  ∃ chart, ofDocument branched = .ok chart ∧ chart.DistinctKeys ∧ chart.PlainKeys ∧
    chart.Legal [0, 1, 2, 3, 4, 6] ∧ 6 < chart.nodes.length ∧ 5 < chart.nodes.length ∧
    chart.dottedPath 6 = "p.right.x.b" ∧ chart.dottedPath 5 = "p.right.x.a" ∧
    (chart.address [0, 1, 2, 3, 4, 6]).covers "p.right.x.b" = true ∧
    ¬ (chart.address [0, 1, 2, 3, 4, 6]).covers "p.right.x.a" = true
  := by
  obtain ⟨chart, h, hp⟩ := Outcome.exists_of_any (x := ofDocument branched)
    (p := fun chart => chart.DistinctKeys ∧ chart.PlainKeys ∧ chart.Legal [0, 1, 2, 3, 4, 6] ∧
      6 < chart.nodes.length ∧ 5 < chart.nodes.length ∧
      chart.dottedPath 6 = "p.right.x.b" ∧ chart.dottedPath 5 = "p.right.x.a")
    (by decide +kernel)
  obtain ⟨hkeys, hplain, legal, hb, ha, hpathb, hpatha⟩ := of_decide_eq_true hp
  refine ⟨chart, h, hkeys, hplain, legal, hb, ha, hpathb, hpatha, ?_, ?_⟩
  · rw [← hpathb, (covers_dottedPath_iff h hkeys hplain legal hb).1]
    decide
  · rw [← hpatha, (covers_dottedPath_iff h hkeys hplain legal ha).1]
    decide

end Chart

end Statechart
