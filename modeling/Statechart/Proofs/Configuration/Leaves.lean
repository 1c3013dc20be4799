import Mathlib.Data.List.Perm.Basic
import Statechart.Proofs.Configuration.Coverage

/-!
# Addressed leaves

The address of a legal configuration lists the dotted paths of the active leaves except those
that are regions of a parallel node (`leafPaths_address`).  So it counts and lists all active
leaves exactly if no region of an active parallel node is a leaf itself.
-/

namespace Statechart

namespace StateValue

theorem leafPathsAll_eq_flatMap (path : String) (children : List (String × StateValue)) :
  leafPathsAll path children = children.flatMap (fun e => e.2.leafPathsFrom (pathBelow path e.1))
  := by
  induction children with
  | nil => rfl
  | cons e rest ih => rw [leafPathsAll, ih, List.flatMap_cons]

mutual

/-- There are as many paths as leaves. -/
theorem length_leafPathsFrom (path : String) (value : StateValue) :
  (value.leafPathsFrom path).length = value.leafCount
  := by
  cases value with
  | leaf key => rfl
  | branch children =>
    rw [leafPathsFrom, leafCount]
    exact length_leafPathsAll path children

theorem length_leafPathsAll (path : String) (children : List (String × StateValue)) :
  (leafPathsAll path children).length = leafCountAll children
  := by
  cases children with
  | nil => rfl
  | cons e rest =>
    rw [leafPathsAll, leafCountAll, List.length_append, length_leafPathsFrom,
      length_leafPathsAll path rest]

end

end StateValue

namespace Chart

open StateValue (pathBelow)

variable {chart : Chart} {configuration : NodeSet} {n c x fuel : Nat}

/-! ### Dotted paths -/

theorem Pathed.dottedPath_root (hpaths : chart.Pathed) :
  chart.dottedPath root = ""
  := by
  rw [dottedPath, hpaths.path_root]
  rfl

/-- The dotted path of a child goes on with its key. -/
theorem Pathed.pathBelow_dottedPath (hpaths : chart.Pathed) (wf : chart.WellFormed)
    (hplain : chart.PlainKeys) (hc : chart.parent? c = some n) :
  pathBelow (chart.dottedPath n) (chart.key c) = chart.dottedPath c
  := by
  have hn : n < chart.nodes.length := (wf.parent_lt hc).trans (lt_of_parent hc)
  rw [pathBelow, dottedPath, dottedPath, hpaths.path_child hc]
  split
  · next hempty =>
    have hpath := hpaths.segments_dottedPath wf hplain hn
    rw [dottedPath, hempty] at hpath
    rw [← hpath]
    exact String.intercalate_singleton.symm
  · next hne =>
    rw [Text.join_concat]
    intro hpath
    rw [hpath] at hne
    exact hne rfl

/-- Nodes with the same dotted path are the same. -/
theorem Pathed.eq_of_dottedPath (hpaths : chart.Pathed) (wf : chart.WellFormed)
    (hkeys : chart.DistinctKeys) (hplain : chart.PlainKeys) (hn : n < chart.nodes.length)
    (hx : x < chart.nodes.length) (h : chart.dottedPath n = chart.dottedPath x) :
  n = x
  := by
  have hpath : chart.path n = chart.path x := by
    rw [← hpaths.segments_dottedPath wf hplain hn, h, hpaths.segments_dottedPath wf hplain hx]
  have hdescend := hpaths.descend?_path wf hkeys hn
  rw [hpath, hpaths.descend?_path wf hkeys hx, Option.some.injEq] at hdescend
  exact hdescend.symm

/-! ### Named leaves -/

/-- Whether a node is a leaf and a region of a parallel node. -/
def isAtomicRegion (chart : Chart) (n : Nat) : Bool :=
  (chart.kind n).isAtomic && (chart.parent? n).any (fun p => (chart.kind p).isParallel)

/-- The active leaves that are no regions. -/
def namedLeaves (chart : Chart) (configuration : NodeSet) : List Nat :=
  (chart.leaves configuration).filter (fun n => !chart.isAtomicRegion n)

/-- The active leaves below a node that are no regions. -/
def namedLeavesBelow (chart : Chart) (configuration : NodeSet) (n : Nat) : List Nat :=
  (chart.namedLeaves configuration).filter (fun x => chart.isBelow x n)

theorem mem_namedLeaves :
  x ∈ chart.namedLeaves configuration ↔
    x ∈ configuration ∧ (chart.kind x).isAtomic = true ∧
      ∀ p, chart.parent? x = some p → (chart.kind p).isParallel = false
  := by
  rw [namedLeaves, List.mem_filter, mem_leaves, isAtomicRegion, and_assoc]
  refine and_congr_right fun _ => and_congr_right fun hx => ?_
  rw [hx]
  cases chart.parent? x <;> simp

theorem mem_namedLeavesBelow :
  x ∈ chart.namedLeavesBelow configuration n ↔
    x ∈ chart.namedLeaves configuration ∧ chart.isBelow x n = true
  := List.mem_filter

theorem Legal.nodup_namedLeaves (legal : chart.Legal configuration) :
  (chart.namedLeaves configuration).Nodup
  := ((legal.increasing.imp Nat.ne_of_lt).filter _).filter _

theorem Legal.nodup_namedLeavesBelow (legal : chart.Legal configuration) (n : Nat) :
  (chart.namedLeavesBelow configuration n).Nodup
  := legal.nodup_namedLeaves.filter _

/-- Below an atomic node there is no leaf. -/
theorem WellFormed.namedLeavesBelow_of_isAtomic (wf : chart.WellFormed)
    (hk : (chart.kind n).isAtomic = true) :
  chart.namedLeavesBelow configuration n = []
  := List.filter_eq_nil_iff.mpr fun x _ => wf.not_isBelow_of_isAtomic hk x

/-- The leaves below a compound node are its active child, if this is a leaf. -/
theorem Legal.namedLeavesBelow_of_isAtomic_child (legal : chart.Legal configuration)
    (wf : chart.WellFormed) (hk : (chart.kind n).isCompound = true) (hc : c ∈ configuration)
    (hcn : chart.parent? c = some n) (hleaf : (chart.kind c).isAtomic = true) :
  (chart.namedLeavesBelow configuration n).Perm [c]
  := by
  rw [List.perm_ext_iff_of_nodup (legal.nodup_namedLeavesBelow n) (List.nodup_singleton c)]
  intro x
  rw [mem_namedLeavesBelow, mem_namedLeaves, List.mem_singleton]
  constructor
  · rintro ⟨⟨hx, -⟩, hxn⟩
    rcases (wf.isBelow_iff_within_child legal hk hc hcn hx).mp hxn with rfl | hxc
    · rfl
    · exact absurd hxc (wf.not_isBelow_of_isAtomic hleaf x)
  · rintro rfl
    refine ⟨⟨hc, hleaf, ?_⟩, wf.isBelow_of_parent hcn⟩
    intro p hp
    rw [hcn, Option.some.injEq] at hp
    rw [← hp, (Kind.plain_of_isCompound hk).2.1]

/-- The leaves below a compound node are those below its active child, if this is no leaf. -/
theorem Legal.namedLeavesBelow_of_inner_child (legal : chart.Legal configuration)
    (wf : chart.WellFormed) (hk : (chart.kind n).isCompound = true) (hc : c ∈ configuration)
    (hcn : chart.parent? c = some n) (hinner : ¬ (chart.kind c).isAtomic = true) :
  chart.namedLeavesBelow configuration n = chart.namedLeavesBelow configuration c
  := by
  apply List.filter_congr
  intro x hx
  obtain ⟨hx, hleaf, -⟩ := mem_namedLeaves.mp hx
  rw [Bool.eq_iff_iff, wf.isBelow_iff_within_child legal hk hc hcn hx]
  refine or_iff_right ?_
  rintro rfl
  exact hinner hleaf

/-- The leaves below a parallel node are those below its regions. -/
theorem Legal.namedLeavesBelow_of_isParallel (legal : chart.Legal configuration)
    (wf : chart.WellFormed) (hk : (chart.kind n).isParallel = true) :
  ((chart.regions n).flatMap (chart.namedLeavesBelow configuration)).Perm
    (chart.namedLeavesBelow configuration n)
  := by
  have hnodup : ((chart.regions n).flatMap (chart.namedLeavesBelow configuration)).Nodup := by
    rw [List.nodup_flatMap]
    refine ⟨fun r _ => legal.nodup_namedLeavesBelow r,
      (nodup_regions wf n).imp_of_mem fun {r r'} hr hr' hne => ?_⟩
    intro x hx hx'
    -- a node lies below one child of `n` only
    apply hne
    exact wf.child_unique (parent_of_mem_regions wf hr) (parent_of_mem_regions wf hr')
      (Or.inr (mem_namedLeavesBelow.mp hx).2) (Or.inr (mem_namedLeavesBelow.mp hx').2)
  rw [List.perm_ext_iff_of_nodup hnodup (legal.nodup_namedLeavesBelow n)]
  intro x
  rw [List.mem_flatMap, mem_namedLeavesBelow]
  constructor
  · rintro ⟨r, hr, hx⟩
    obtain ⟨hx, hxr⟩ := mem_namedLeavesBelow.mp hx
    exact ⟨hx, wf.isBelow_trans hxr (wf.isBelow_of_parent (parent_of_mem_regions wf hr))⟩
  · rintro ⟨hx, hxn⟩
    obtain ⟨hactive, -, hregion⟩ := mem_namedLeaves.mp hx
    obtain ⟨r, hrn, hxr⟩ := wf.exists_child hxn
    have hr := legal.mem_of_within wf hactive hxr
    refine ⟨r, mem_regions.mpr ⟨wf.mem_children.mpr hrn, legal.not_history hr⟩,
      mem_namedLeavesBelow.mpr ⟨hx, hxr.resolve_left ?_⟩⟩
    rintro rfl
    rw [hregion n hrn] at hk
    cases hk

/-! ### Listed leaves -/

/-- The address below an active node lists the leaves below it that are no regions. -/
theorem Legal.leafPathsFrom_addressBelow (legal : chart.Legal configuration)
    (wf : chart.WellFormed) (hpaths : chart.Pathed) (hkeys : chart.DistinctKeys)
    (hplain : chart.PlainKeys) (hn : n ∈ configuration) (hfuel : chart.nodes.length ≤ fuel + n) :
  ((chart.addressBelow configuration fuel n).leafPathsFrom (chart.dottedPath n)).Perm
    ((chart.namedLeavesBelow configuration n).map chart.dottedPath)
  := by
  induction fuel generalizing n with
  | zero =>
    have := legal.lt_length hn
    omega
  | succ fuel ih =>
    have hbelow : ∀ {c}, c ∈ configuration → chart.parent? c = some n →
        ((chart.addressBelow configuration fuel c).leafPathsFrom
          (pathBelow (chart.dottedPath n) (chart.key c))).Perm
          ((chart.namedLeavesBelow configuration c).map chart.dottedPath) := by
      intro c hc hcn
      -- a child comes after its parent, so less fuel is left but also less of the chart
      have := wf.parent_lt hcn
      rw [hpaths.pathBelow_dottedPath wf hplain hcn]
      exact ih hc (by omega)
    rcases Kind.cases_of_not_isHistory (legal.not_history hn) with hk | hk | hk
    · rw [addressBelow_of_isAtomic hk, wf.namedLeavesBelow_of_isAtomic hk]
      exact List.Perm.refl []
    · obtain ⟨c, ⟨hc, hcn⟩, -⟩ := legal.child hn hk
      rw [addressBelow_of_isCompound wf legal hk hc hcn]
      split
      · next hleaf =>
        rw [StateValue.leafPathsFrom, hpaths.pathBelow_dottedPath wf hplain hcn]
        exact ((legal.namedLeavesBelow_of_isAtomic_child wf hk hc hcn hleaf).map _).symm
      · next hinner =>
        rw [legal.namedLeavesBelow_of_inner_child wf hk hc hcn hinner, StateValue.leafPathsFrom,
          StateValue.leafPathsAll, StateValue.leafPathsAll, List.append_nil]
        exact hbelow hc hcn
    · rw [addressBelow_of_isParallel hk, StateValue.leafPathsFrom,
        StateValue.leafPathsAll_eq_flatMap]
      refine (hkeys.regionAddresses_perm.flatMap_right _).trans ?_
      rw [List.flatMap_map]
      refine List.Perm.trans ?_ ((legal.namedLeavesBelow_of_isParallel wf hk).map _)
      rw [List.map_flatMap]
      refine List.Perm.flatMap_left _ fun r hr => ?_
      exact hbelow (legal.regions_mem hn hk hr) (parent_of_mem_regions wf hr)

/-- The address of a legal configuration lists the active leaves that are no regions. -/
theorem Legal.leafPaths_address (legal : chart.Legal configuration)
    (wf : chart.WellFormed) (hpaths : chart.Pathed) (hkeys : chart.DistinctKeys)
    (hplain : chart.PlainKeys) (hroot : ¬ (chart.kind root).isAtomic = true) :
  (chart.address configuration).leafPaths.Perm
    ((chart.namedLeaves configuration).map chart.dottedPath)
  := by
  have hall : chart.namedLeavesBelow configuration root = chart.namedLeaves configuration := by
    apply List.filter_eq_self.mpr
    intro x hx
    obtain ⟨hactive, hleaf, -⟩ := mem_namedLeaves.mp hx
    apply wf.isBelow_root (legal.lt_length hactive)
    rintro rfl
    exact hroot hleaf
  rw [← hall, StateValue.leafPaths, ← hpaths.dottedPath_root]
  exact legal.leafPathsFrom_addressBelow wf hpaths hkeys hplain legal.root_mem
    (Nat.le_add_right chart.nodes.length root)

/-- No active leaf is left out of the named ones exactly if none is a region. -/
theorem namedLeaves_length_iff :
  (chart.namedLeaves configuration).length = (chart.leaves configuration).length ↔
    ∀ n ∈ chart.leaves configuration, chart.isAtomicRegion n = false
  := by
  rw [namedLeaves, List.length_filter_eq_length_iff]
  simp

/-- Let the keys of a compiled chart be plain, and let the children of each node have distinct
keys.  The address of a legal configuration lists the dotted paths of the active leaves that are
no regions of a parallel node, and counts them; the others are left out.  So it counts the active
leaves, and lists exactly their paths, if and only if none of them is a region. -/
theorem leafCount_address_iff {document : Document.Machine} (h : ofDocument document = .ok chart)
    (hkeys : chart.DistinctKeys) (hplain : chart.PlainKeys) (legal : chart.Legal configuration) :
  (chart.address configuration).leafPaths.Perm
      ((chart.namedLeaves configuration).map chart.dottedPath) ∧
    (chart.address configuration).leafCount +
        (chart.leaves configuration).countP chart.isAtomicRegion =
      (chart.leaves configuration).length ∧
    ((chart.address configuration).leafCount = (chart.leaves configuration).length ↔
      ∀ n ∈ chart.leaves configuration, chart.isAtomicRegion n = false) ∧
    ((∀ path, path ∈ (chart.address configuration).leafPaths ↔
        ∃ n ∈ chart.leaves configuration, chart.dottedPath n = path) ↔
      ∀ n ∈ chart.leaves configuration, chart.isAtomicRegion n = false)
  := by
  have wf := wellFormed_of_ofDocument h
  have hpaths := pathed_of_ofDocument h
  have hroot : ¬ (chart.kind root).isAtomic = true := by
    intro hatomic
    obtain ⟨hcompound, hparallel, -⟩ := Kind.plain_of_isAtomic hatomic
    rcases inner_root h with hk | hk
    · rw [hk] at hcompound
      cases hcompound
    · rw [hk] at hparallel
      cases hparallel
  have hlisted := legal.leafPaths_address wf hpaths hkeys hplain hroot
  have hcount : (chart.address configuration).leafCount =
      (chart.namedLeaves configuration).length := by
    rw [← StateValue.length_leafPathsFrom "", ← List.length_map (f := chart.dottedPath)]
    exact hlisted.length_eq
  refine ⟨hlisted, ?_, ?_, ?_⟩
  · rw [hcount, namedLeaves, ← List.countP_eq_length_filter, Nat.add_comm,
      List.length_eq_countP_add_countP chart.isAtomicRegion]
    simp
  · rw [hcount, namedLeaves_length_iff]
  · constructor
    · intro hall n hn
      obtain ⟨hactive, -⟩ := mem_leaves.mp hn
      -- the path of `n` is listed, and no other node has it
      obtain ⟨x, hx, hxn⟩ := List.mem_map.mp (hlisted.mem_iff.mp ((hall _).mpr ⟨n, hn, rfl⟩))
      have hxlt := legal.lt_length (mem_namedLeaves.mp hx).1
      rw [hpaths.eq_of_dottedPath wf hkeys hplain hxlt (legal.lt_length hactive) hxn] at hx
      simpa using (List.mem_filter.mp hx).2
    · intro hall path
      have hsame : chart.namedLeaves configuration = chart.leaves configuration := by
        apply List.filter_eq_self.mpr
        intro n hn
        rw [hall n hn]
        rfl
      rw [hlisted.mem_iff, hsame, List.mem_map]

theorem leafCount_address_iff_branched :
  ∃ chart, ofDocument branched = .ok chart ∧ chart.DistinctKeys ∧ chart.PlainKeys ∧
    chart.Legal [0, 1, 2, 3, 4, 6] ∧ chart.Legal [0, 8] ∧
    chart.leaves [0, 1, 2, 3, 4, 6] = [2, 6] ∧ chart.isAtomicRegion 2 = true ∧
    (chart.address [0, 1, 2, 3, 4, 6]).leafPaths.Perm ["p.right.x.b"] ∧
    (chart.address [0, 1, 2, 3, 4, 6]).leafCount + 1 = 2 ∧
    chart.leaves [0, 8] = [8] ∧ (chart.address [0, 8]).leafCount = 1
  := by
  obtain ⟨chart, h, hp⟩ := Outcome.exists_of_any (x := ofDocument branched)
    (p := fun chart => chart.DistinctKeys ∧ chart.PlainKeys ∧ chart.Legal [0, 1, 2, 3, 4, 6] ∧
      chart.Legal [0, 8] ∧ chart.leaves [0, 1, 2, 3, 4, 6] = [2, 6] ∧
      chart.isAtomicRegion 2 = true ∧ chart.isAtomicRegion 6 = false ∧
      chart.dottedPath 6 = "p.right.x.b" ∧
      chart.leaves [0, 8] = [8] ∧ chart.isAtomicRegion 8 = false)
    (by decide +kernel)
  obtain ⟨hkeys, hplain, legal, legal', hleaves, hregion, hnamed, hpath, hleaves', hnamed'⟩ :=
    of_decide_eq_true hp
  obtain ⟨hlisted, hcount, -, -⟩ := leafCount_address_iff h hkeys hplain legal
  obtain ⟨-, -, hcount', -⟩ := leafCount_address_iff h hkeys hplain legal'
  refine ⟨chart, h, hkeys, hplain, legal, legal', hleaves, hregion, ?_, ?_, hleaves', ?_⟩
  · simpa [namedLeaves, hleaves, hregion, hnamed, hpath] using hlisted
  · simpa [hleaves, hregion, hnamed, List.countP_cons] using hcount
  · rw [hleaves'] at hcount'
    exact hcount'.mpr (by simpa using hnamed')

/-- A machine over a parallel node whose regions are atomic. -/
def paired : Document.Machine where
  root := .node { initial := some "p" }
    [("p", .node { type := some .parallel } [("a", .node {} []), ("b", .node {} [])])]

/-- Two active leaves of which the address counts and lists none. -/
theorem leafCount_paired :
  ∃ chart, ofDocument paired = .ok chart ∧ chart.DistinctKeys ∧ chart.PlainKeys ∧
    chart.Legal [0, 1, 2, 3] ∧ chart.leaves [0, 1, 2, 3] = [2, 3] ∧
    chart.dottedPath 2 = "p.a" ∧ chart.dottedPath 3 = "p.b" ∧
    (chart.address [0, 1, 2, 3]).leafCount = 0 ∧ (chart.address [0, 1, 2, 3]).leafPaths = []
  := by
  obtain ⟨chart, h, hp⟩ := Outcome.exists_of_any (x := ofDocument paired)
    (p := fun chart => chart.DistinctKeys ∧ chart.PlainKeys ∧ chart.Legal [0, 1, 2, 3] ∧
      chart.leaves [0, 1, 2, 3] = [2, 3] ∧ chart.dottedPath 2 = "p.a" ∧
      chart.dottedPath 3 = "p.b" ∧ (chart.address [0, 1, 2, 3]).leafCount = 0 ∧
      (chart.address [0, 1, 2, 3]).leafPaths = [])
    (by decide +kernel)
  exact ⟨chart, h, of_decide_eq_true hp⟩

end Chart

end Statechart
