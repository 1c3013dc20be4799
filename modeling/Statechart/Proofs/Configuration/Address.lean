import Mathlib.Data.List.Sort
import Mathlib.Data.String.Basic
import Statechart.Proofs.Association
import Statechart.Proofs.Configuration.Named

/-!
# Addresses of configurations

Where the children of each node have distinct keys, addresses and configurations determine
each other: a legal configuration is the one that its address names
(`configurationOf_address`), and the address of the configuration that a state value names
covers every path that the value covers (`coversKeys_addressBelow`).
-/

namespace Statechart

namespace StateValue

variable {own key : String} {keys : List String} {children : List (String × StateValue)}

theorem coversKeys_nil (value : StateValue) :
  value.coversKeys [] = true
  := by
  unfold coversKeys
  rfl

theorem coversKeys_leaf_iff :
  (leaf own).coversKeys (key :: keys) = true ↔ keys = [] ∧ own = key
  := by
  rw [coversKeys]
  simp

theorem coversKeys_branch_iff :
  (branch children).coversKeys (key :: keys) = true ↔
    ∃ child, children.lookup key = some child ∧ child.coversKeys keys = true
  := by
  rw [coversKeys]
  cases children.lookup key <;> simp

/-- The empty branch covers the empty path alone. -/
theorem eq_nil_of_coversKeys (h : (branch []).coversKeys keys = true) :
  keys = []
  := by
  cases keys with
  | nil => rfl
  | cons key keys =>
    obtain ⟨child, hchild, -⟩ := coversKeys_branch_iff.mp h
    cases hchild

end StateValue

namespace Chart

open Association (insertSorted)

/-- Whether the children of each node have distinct keys. -/
def DistinctKeys (chart : Chart) : Prop :=
  ∀ n, ((chart.children n).map chart.key).Nodup

instance (chart : Chart) : Decidable chart.DistinctKeys :=
  decidable_of_iff
    (∀ n ∈ List.range chart.nodes.length, ((chart.children n).map chart.key).Nodup) (by
      constructor
      · intro h n
        by_cases hn : n < chart.nodes.length
        · apply h n (List.mem_range.mpr hn)
        · rw [children, node?_eq_none hn]
          apply List.nodup_nil
      · intro h n _
        apply h n)

/-- Whether a value for a node activates the active nodes below it. -/
def Activates (chart : Chart) (configuration : NodeSet) (fuel n : Nat)
    (value : Option StateValue) : Prop :=
  ∀ s, ∃ s', chart.activate fuel n value s = .ok s' ∧
    ∀ x, x ∈ s' ↔ x ∈ s ∨ x ∈ configuration ∧ chart.isBelow x n = true

variable {chart : Chart} {configuration : NodeSet} {n c k r i fuel : Nat} {s s' : NodeSet}
  {key : String} {value : Option StateValue} {below : Option StateValue}
  {values : List (String × StateValue)}

/-- Children of a node with equal keys are the same. -/
theorem DistinctKeys.eq (hkeys : chart.DistinctKeys) (hc : c ∈ chart.children n)
    (hk : k ∈ chart.children n) (h : chart.key c = chart.key k) :
  c = k
  := List.inj_on_of_nodup_map (hkeys n) hc hk h

theorem child?_eq_some (h : chart.child? n key = some c) :
  c ∈ chart.children n ∧ chart.key c = key
  := ⟨List.mem_of_find?_eq_some h, by simpa using List.find?_some h⟩

/-- A child is found by its key. -/
theorem DistinctKeys.child?_key (hkeys : chart.DistinctKeys) (hc : c ∈ chart.children n) :
  chart.child? n (chart.key c) = some c
  := by
  cases hfind : chart.child? n (chart.key c) with
  | none =>
    have hnot := List.find?_eq_none.mp hfind c hc
    simp at hnot
  | some k =>
    obtain ⟨hk, hkey⟩ := child?_eq_some hfind
    rw [hkeys.eq hk hc hkey]

/-! ### Addresses -/

theorem addressBelow_of_isAtomic (hk : (chart.kind n).isAtomic = true) :
  chart.addressBelow configuration fuel n = .branch []
  := by
  cases fuel with
  | zero => rfl
  | succ fuel =>
    rw [addressBelow]
    cases hkind : chart.kind n with
    | compound i =>
      rw [hkind] at hk
      cases hk
    | parallel =>
      rw [hkind] at hk
      cases hk
    | _ => rfl

/-- The address below a compound node names its active child. -/
theorem addressBelow_of_isCompound (wf : chart.WellFormed) (legal : chart.Legal configuration)
    (hk : (chart.kind n).isCompound = true) (hc : c ∈ configuration)
    (hcn : chart.parent? c = some n) :
  chart.addressBelow configuration (fuel + 1) n =
    if (chart.kind c).isAtomic then .leaf (chart.key c)
    else .branch [(chart.key c, chart.addressBelow configuration fuel c)]
  := by
  have hfind : (chart.children n).find? (fun c => configuration.contains c) = some c := by
    cases hfind : (chart.children n).find? (fun c => configuration.contains c) with
    | none =>
      have hnot := List.find?_eq_none.mp hfind c (wf.mem_children.mpr hcn)
      simp [hc] at hnot
    | some c' =>
      have hc'n := wf.parent_of_mem_children (List.mem_of_find?_eq_some hfind)
      have hc' : c' ∈ configuration := by simpa using List.find?_some hfind
      rw [legal.child_unique (legal.parent_mem hc hcn) hk hc' hc'n hc hcn]
  rw [addressBelow]
  cases hkind : chart.kind n with
  | compound i =>
    dsimp only
    rw [hfind]
  | _ =>
    rw [hkind] at hk
    cases hk

/-- The addresses of the regions of a node, by their keys. -/
def regionAddresses (chart : Chart) (configuration : NodeSet) (fuel n : Nat) :
    List (String × StateValue) :=
  (chart.regions n).foldl (fun done r =>
    insertSorted (chart.key r) (chart.addressBelow configuration fuel r) done) []

theorem addressBelow_of_isParallel (hk : (chart.kind n).isParallel = true) :
  chart.addressBelow configuration (fuel + 1) n =
    .branch (chart.regionAddresses configuration fuel n)
  := by
  rw [addressBelow]
  cases hkind : chart.kind n with
  | parallel => rfl
  | _ =>
    rw [hkind] at hk
    cases hk

theorem regionAddresses_eq_sorted :
  chart.regionAddresses configuration fuel n =
    Association.sorted ((chart.regions n).map
      (fun r => (chart.key r, chart.addressBelow configuration fuel r)))
  := by
  rw [regionAddresses, Association.sorted, List.foldl_map]

/-- The addresses of the regions stand for the regions in some order. -/
theorem DistinctKeys.regionAddresses_perm (hkeys : chart.DistinctKeys) :
  (chart.regionAddresses configuration fuel n).Perm
    ((chart.regions n).map (fun r => (chart.key r, chart.addressBelow configuration fuel r)))
  := by
  rw [regionAddresses_eq_sorted]
  apply Association.sorted_perm
  rw [List.map_map]
  exact (hkeys n).sublist (List.filter_sublist.map chart.key)

/-- Each region has its address under its key. -/
theorem lookup_regionAddresses (hkeys : chart.DistinctKeys) (hr : r ∈ chart.regions n) :
  (chart.regionAddresses configuration fuel n).lookup (chart.key r) =
    some (chart.addressBelow configuration fuel r)
  := by
  have hmem : (chart.key r, chart.addressBelow configuration fuel r) ∈
      chart.regionAddresses configuration fuel n :=
    hkeys.regionAddresses_perm.mem_iff.mpr (List.mem_map.mpr ⟨r, hr, rfl⟩)
  rw [regionAddresses_eq_sorted] at hmem ⊢
  exact (Association.increasing_sorted _).lookup hmem

theorem exists_region_of_mem_regionAddresses {e : String × StateValue}
    (he : e ∈ chart.regionAddresses configuration fuel n) :
  ∃ r ∈ chart.regions n, e.1 = chart.key r
  := by
  rw [regionAddresses_eq_sorted] at he
  obtain ⟨r, hr, rfl⟩ := List.mem_map.mp (Association.mem_of_mem_sorted he)
  exact ⟨r, hr, rfl⟩

/-! ### Activation node by node -/

theorem activate_of_isAtomic (hk : (chart.kind n).isAtomic = true) :
  chart.activate fuel n none s = .ok s ∧ chart.activate fuel n (some (.branch [])) s = .ok s
  := by
  cases fuel with
  | zero => exact ⟨rfl, rfl⟩
  | succ fuel =>
    unfold activate
    cases hkind : chart.kind n with
    | atomic => exact ⟨rfl, rfl⟩
    | final data => exact ⟨rfl, rfl⟩
    | _ =>
      rw [hkind] at hk
      cases hk

/-- An atomic node has no value but the empty branch. -/
theorem eq_of_activate_isAtomic {v : StateValue} (hk : (chart.kind n).isAtomic = true)
    (h : chart.activate (fuel + 1) n (some v) s = .ok s') :
  v = .branch []
  := by
  unfold activate at h
  cases hkind : chart.kind n with
  | compound i =>
    rw [hkind] at hk
    cases hk
  | parallel =>
    rw [hkind] at hk
    cases hk
  | _ =>
    rw [hkind] at h
    dsimp only at h
    split at h
    · next heq => cases heq
    · next heq =>
      cases heq
      rfl
    · cases h

/-- Below a compound node a child is activated. -/
theorem activate_compound_iff (hk : chart.kind n = .compound i) :
  chart.activate (fuel + 1) n value s = .ok s' ↔
    ∃ c below, chart.activeChild n i value = .ok (c, below) ∧
      (chart.kind c).isHistory = false ∧
      chart.activate fuel c below (NodeSet.insert c s) = .ok s'
  := by
  rw [activate.eq_def]
  dsimp only
  rw [hk]
  dsimp only
  rw [Outcome.bind_eq_ok]
  constructor
  · rintro ⟨⟨c, below⟩, hc, h⟩
    dsimp only at h
    split at h
    · cases h
    · next hplain => exact ⟨c, below, hc, by simpa using hplain, h⟩
  · rintro ⟨c, below, hc, hplain, h⟩
    use (c, below), hc
    dsimp only
    rw [hplain]
    exact h

/-- Below a parallel node each region is activated under its value. -/
theorem activate_parallel_iff (hk : chart.kind n = .parallel) :
  chart.activate (fuel + 1) n value s = .ok s' ↔
    ∃ values, chart.regionValues n value = .ok values ∧
      (chart.regions n).foldlM (fun s r =>
        chart.activate fuel r (values.lookup (chart.key r)) (NodeSet.insert r s)) s = .ok s'
  := by
  rw [activate.eq_def]
  dsimp only
  rw [hk]
  apply Outcome.bind_eq_ok

/-- Activation keeps what is active. -/
theorem subset_activate {x : Nat} (hx : x ∈ s)
    (h : chart.activate fuel n value s = .ok s') :
  x ∈ s'
  := by
  induction fuel generalizing n value s s' with
  | zero =>
    cases h
    exact hx
  | succ fuel ih =>
    cases hkind : chart.kind n with
    | compound i =>
      obtain ⟨c, below, -, -, h⟩ := (activate_compound_iff hkind).mp h
      apply ih (NodeSet.mem_insert_of_mem hx) h
    | parallel =>
      obtain ⟨values, -, h⟩ := (activate_parallel_iff hkind).mp h
      apply Outcome.foldlM_preserves (P := fun s => x ∈ s) _ hx h
      intro s r t hs ht
      apply ih (NodeSet.mem_insert_of_mem hs) ht
    | _ =>
      unfold activate at h
      rw [hkind] at h
      dsimp only at h
      split at h
      · cases h
        exact hx
      · cases h
        exact hx
      · cases h

/-! ### From configurations to addresses and back -/

/-- The addresses of the regions of a parallel node are values for it. -/
theorem regionValues_regionAddresses (hkeys : chart.DistinctKeys) :
  chart.regionValues n (some (.branch (chart.regionAddresses configuration fuel n))) =
    .ok (chart.regionAddresses configuration fuel n)
  := by
  rw [regionValues]
  split
  · next e he =>
    obtain ⟨r, hr, hkey⟩ := exists_region_of_mem_regionAddresses (List.mem_of_find?_eq_some he)
    have hfound := List.find?_some he
    rw [hkey, hkeys.child?_key (mem_regions.mp hr).1] at hfound
    simp [(mem_regions.mp hr).2] at hfound
  · rfl

/-- The active child of a compound node has the first key of the paths that the value of the
node covers, and its value covers the rest. -/
theorem covers_of_activeChild {v : StateValue} {keys : List String}
    (h : chart.activeChild n i (some v) = .ok (c, below))
    (hcovers : v.coversKeys (key :: keys) = true) :
  chart.key c = key ∧ (keys = [] ∨ ∃ child, below = some child ∧ child.coversKeys keys = true)
  := by
  have hnamed : ∀ {own value}, chart.namedChild n own value = .ok (c, below) →
      chart.key c = own ∧ below = value := by
    intro own value h
    rw [namedChild] at h
    split at h
    · next hc =>
      cases h
      exact ⟨(child?_eq_some hc).2, rfl⟩
    · cases h
  match v with
  | .leaf own =>
    obtain ⟨rfl, rfl⟩ := StateValue.coversKeys_leaf_iff.mp hcovers
    exact ⟨(hnamed h).1, Or.inl rfl⟩
  | .branch [] => cases StateValue.eq_nil_of_coversKeys hcovers
  | .branch [(own, child)] =>
    obtain ⟨child', hlookup, hrest⟩ := StateValue.coversKeys_branch_iff.mp hcovers
    obtain ⟨hkey, rfl⟩ := hnamed h
    rw [List.lookup_cons] at hlookup
    split at hlookup
    · next heq =>
      cases hlookup
      exact ⟨hkey.trans (beq_iff_eq.mp heq).symm, Or.inr ⟨child, rfl, hrest⟩⟩
    · cases hlookup
  | .branch (_ :: _ :: _) => cases h

/-- The keys of the values for a parallel node are keys of its regions. -/
theorem exists_region_of_regionValues {children : List (String × StateValue)}
    {child : StateValue} (h : chart.regionValues n (some (.branch children)) = .ok values)
    (hchild : children.lookup key = some child) :
  values = children ∧ ∃ r ∈ chart.regions n, chart.key r = key
  := by
  rw [regionValues] at h
  split at h
  · cases h
  · next hall =>
    cases h
    use rfl
    obtain ⟨_, _, heq, -⟩ := List.lookup_eq_some_iff.mp hchild
    have hkey := List.find?_eq_none.mp hall (key, child) (by simp [heq])
    cases hfind : chart.child? n key with
    | none => simp [hfind] at hkey
    | some r =>
      obtain ⟨hr, hrkey⟩ := child?_eq_some hfind
      use r, mem_regions.mpr ⟨hr, by simpa [hfind] using hkey⟩, hrkey

/-- An active node and the active nodes below it are the active nodes within it. -/
theorem mem_insert_or_isBelow_iff {x : Nat} (hc : c ∈ configuration) :
  x ∈ NodeSet.insert c s ∨ x ∈ configuration ∧ chart.isBelow x c = true ↔
    x ∈ s ∨ x ∈ configuration ∧ chart.Within x c
  := by
  rw [NodeSet.mem_insert]
  constructor
  · rintro ((rfl | hx) | ⟨hx, hxc⟩)
    · exact Or.inr ⟨hc, within_refl chart x⟩
    · exact Or.inl hx
    · exact Or.inr ⟨hx, Or.inr hxc⟩
  · rintro (hx | ⟨hx, rfl | hxc⟩)
    · exact Or.inl (Or.inr hx)
    · exact Or.inl (Or.inl rfl)
    · exact Or.inr ⟨hx, hxc⟩

/-- The regions of a node that are activated one after the other, each with the active nodes
below it. -/
theorem mem_activate_regions {rs : List Nat}
    (hr : ∀ r ∈ rs, chart.Activates configuration fuel r (values.lookup (chart.key r)))
    (hactive : ∀ r ∈ rs, r ∈ configuration) (s : NodeSet) :
  ∃ s', rs.foldlM (fun s r =>
      chart.activate fuel r (values.lookup (chart.key r)) (NodeSet.insert r s)) s = .ok s' ∧
    ∀ x, x ∈ s' ↔ x ∈ s ∨ x ∈ configuration ∧ ∃ r ∈ rs, chart.Within x r
  := by
  induction rs generalizing s with
  | nil => exact ⟨s, rfl, by simp⟩
  | cons r rs ih =>
    obtain ⟨t, ht, hmemt⟩ := hr r List.mem_cons_self (NodeSet.insert r s)
    obtain ⟨s', hs', hmem⟩ := ih (fun r' hr' => hr r' (List.mem_cons_of_mem r hr'))
      (fun r' hr' => hactive r' (List.mem_cons_of_mem r hr')) t
    use s'
    constructor
    · rw [List.foldlM_cons]
      exact Outcome.bind_eq_ok.mpr ⟨t, ht, hs'⟩
    · intro x
      rw [hmem, hmemt, mem_insert_or_isBelow_iff (hactive r List.mem_cons_self), or_assoc,
        ← and_or_left, List.exists_mem_cons_iff]

namespace WellFormed

variable (wf : chart.WellFormed)

include wf

/-- The active nodes below an active compound node lie within its active child. -/
theorem isBelow_iff_within_child (legal : chart.Legal configuration)
    (hk : (chart.kind n).isCompound = true) (hc : c ∈ configuration)
    (hcn : chart.parent? c = some n) {x : Nat} (hx : x ∈ configuration) :
  chart.isBelow x n = true ↔ chart.Within x c
  := by
  constructor
  · intro hxn
    obtain ⟨c', hc'n, hxc'⟩ := wf.exists_child hxn
    have hc' := legal.mem_of_within wf hx hxc'
    rw [legal.child_unique (legal.parent_mem hc hcn) hk hc hcn hc' hc'n]
    exact hxc'
  · intro hxc
    apply wf.within_isBelow hxc (wf.isBelow_of_parent hcn)

/-- The active nodes below a node lie within its regions. -/
theorem within_region_iff (legal : chart.Legal configuration) {x : Nat}
    (hx : x ∈ configuration) :
  (∃ r ∈ chart.regions n, chart.Within x r) ↔ chart.isBelow x n = true
  := by
  constructor
  · rintro ⟨r, hr, hxr⟩
    apply wf.within_isBelow hxr (wf.isBelow_of_parent (parent_of_mem_regions wf hr))
  · intro hxn
    obtain ⟨r, hrn, hxr⟩ := wf.exists_child hxn
    have hr := legal.mem_of_within wf hx hxr
    exact ⟨r, mem_regions.mpr ⟨wf.mem_children.mpr hrn, legal.not_history hr⟩, hxr⟩

theorem activates_of_isAtomic (hk : (chart.kind n).isAtomic = true) :
  chart.Activates configuration fuel n none ∧
    chart.Activates configuration fuel n (some (chart.addressBelow configuration fuel n))
  := by
  rw [addressBelow_of_isAtomic hk]
  have hmem : ∀ (s : NodeSet) x,
      x ∈ s ↔ x ∈ s ∨ x ∈ configuration ∧ chart.isBelow x n = true := by
    intro s x
    simp [wf.not_isBelow_of_isAtomic hk x]
  constructor
  · exact fun s => ⟨s, (activate_of_isAtomic hk).1, hmem s⟩
  · exact fun s => ⟨s, (activate_of_isAtomic hk).2, hmem s⟩

/-- The address below a compound node activates the active nodes below it if the one below its
active child does. -/
theorem activates_of_compound (hkeys : chart.DistinctKeys)
    (legal : chart.Legal configuration) (hkind : chart.kind n = .compound i)
    (hc : c ∈ configuration) (hcn : chart.parent? c = some n)
    (hchild : chart.Activates configuration fuel c
      (some (chart.addressBelow configuration fuel c))) :
  chart.Activates configuration (fuel + 1) n
    (some (chart.addressBelow configuration (fuel + 1) n))
  := by
  intro s
  have hk : (chart.kind n).isCompound = true := by rw [hkind]; rfl
  -- the address is the key of the child, or the branch of the child alone
  have hnamed : ∃ below, chart.activeChild n i
        (some (chart.addressBelow configuration (fuel + 1) n)) = .ok (c, below) ∧
      chart.Activates configuration fuel c below := by
    have hfound : ∀ below, chart.namedChild n (chart.key c) below = .ok (c, below) := by
      intro below
      rw [namedChild, hkeys.child?_key (wf.mem_children.mpr hcn)]
    rw [addressBelow_of_isCompound wf legal hk hc hcn]
    split
    · next hleaf => exact ⟨none, hfound none, (wf.activates_of_isAtomic hleaf).1⟩
    · exact ⟨_, hfound _, hchild⟩
  obtain ⟨below, hactive, hbelow⟩ := hnamed
  obtain ⟨s', hs', hmem⟩ := hbelow (NodeSet.insert c s)
  use s'
  constructor
  · apply (activate_compound_iff hkind).mpr
    exact ⟨c, below, hactive, legal.not_history hc, hs'⟩
  · intro x
    rw [hmem, mem_insert_or_isBelow_iff hc,
      and_congr_right (fun hx => wf.isBelow_iff_within_child legal hk hc hcn hx)]

/-- The address below a parallel node activates the active nodes below it if those below its
regions do. -/
theorem activates_of_parallel (hkeys : chart.DistinctKeys)
    (legal : chart.Legal configuration) (hk : chart.kind n = .parallel)
    (hactive : ∀ r ∈ chart.regions n, r ∈ configuration)
    (hregion : ∀ r ∈ chart.regions n, chart.Activates configuration fuel r
      (some (chart.addressBelow configuration fuel r))) :
  chart.Activates configuration (fuel + 1) n
    (some (chart.addressBelow configuration (fuel + 1) n))
  := by
  intro s
  have hlookup : ∀ r ∈ chart.regions n, chart.Activates configuration fuel r
      ((chart.regionAddresses configuration fuel n).lookup (chart.key r)) := by
    intro r hr
    rw [lookup_regionAddresses hkeys hr]
    apply hregion r hr
  obtain ⟨s', hs', hmem⟩ := mem_activate_regions hlookup hactive s
  use s'
  constructor
  · rw [addressBelow_of_isParallel (by rw [hk]; rfl)]
    apply (activate_parallel_iff hk).mpr
    exact ⟨_, regionValues_regionAddresses hkeys, hs'⟩
  · intro x
    rw [hmem, and_congr_right (fun hx => wf.within_region_iff legal hx)]

/-- The address below an active node of a legal configuration activates the active nodes
below it. -/
theorem activates_addressBelow (hkeys : chart.DistinctKeys) (legal : chart.Legal configuration)
    (hn : n ∈ configuration) (hfuel : chart.nodes.length ≤ fuel + n) :
  chart.Activates configuration fuel n (some (chart.addressBelow configuration fuel n))
  := by
  induction fuel generalizing n with
  | zero =>
    have := legal.lt_length hn
    omega
  | succ fuel ih =>
    have hchild : ∀ {c}, c ∈ configuration → chart.parent? c = some n →
        chart.Activates configuration fuel c
          (some (chart.addressBelow configuration fuel c)) := by
      intro c hc hcn
      have := wf.parent_lt hcn
      apply ih hc (by omega)
    cases hkind : chart.kind n with
    | atomic => exact (wf.activates_of_isAtomic (by rw [hkind]; rfl)).2
    | final data => exact (wf.activates_of_isAtomic (by rw [hkind]; rfl)).2
    | compound i =>
      obtain ⟨c, ⟨hc, hcn⟩, -⟩ := legal.child hn (by rw [hkind]; rfl)
      apply wf.activates_of_compound hkeys legal hkind hc hcn (hchild hc hcn)
    | parallel =>
      have hactive : ∀ r ∈ chart.regions n, r ∈ configuration :=
        fun r hr => legal.regions_mem hn (by rw [hkind]; rfl) hr
      apply wf.activates_of_parallel hkeys legal hkind hactive
      exact fun r hr => hchild (hactive r hr) (parent_of_mem_regions wf hr)
    | history depth defaults =>
      have hnot := legal.not_history hn
      rw [hkind] at hnot
      cases hnot

/-- A legal configuration is the one that its address names. -/
theorem configurationOf_address (hkeys : chart.DistinctKeys)
    (legal : chart.Legal configuration) :
  chart.configurationOf (chart.address configuration) = .ok configuration
  := by
  obtain ⟨s, hs, hmem⟩ := wf.activates_addressBelow hkeys legal legal.root_mem
    (Nat.le_add_right _ _) [root]
  have heq : s = configuration := by
    apply List.Pairwise.eq_of_mem_iff (r := (· < ·))
    · apply activate_increasing (List.pairwise_singleton _ _) hs
    · exact legal.increasing
    · intro x
      rw [hmem, List.mem_singleton]
      constructor
      · rintro (rfl | hx)
        · exact legal.root_mem
        · exact hx.1
      · intro hx
        by_cases hroot : x = root
        · exact Or.inl hroot
        · exact Or.inr ⟨hx, wf.isBelow_root (legal.lt_length hx) hroot⟩
  rw [configurationOf, address, hs, heq]

/-- Where a value below an active node activates active nodes alone, the address below the
node covers the paths that the value covers. -/
theorem coversKeys_addressBelow (hkeys : chart.DistinctKeys)
    (legal : chart.Legal configuration) {v : StateValue} {keys : List String}
    (hn : n ∈ configuration) (hfuel : chart.nodes.length ≤ fuel + n)
    (h : chart.activate fuel n (some v) s = .ok s') (hsub : ∀ x ∈ s', x ∈ configuration)
    (hcovers : v.coversKeys keys = true) :
  (chart.addressBelow configuration fuel n).coversKeys keys = true
  := by
  induction fuel generalizing n v keys s s' with
  | zero =>
    have := legal.lt_length hn
    omega
  | succ fuel ih =>
    cases keys with
    | nil => apply StateValue.coversKeys_nil
    | cons key keys =>
      have hatomic : ¬ (chart.kind n).isAtomic = true := by
        intro hk
        rw [eq_of_activate_isAtomic hk h] at hcovers
        cases StateValue.eq_nil_of_coversKeys hcovers
      cases hkind : chart.kind n with
      | atomic =>
        rw [hkind] at hatomic
        exact absurd rfl hatomic
      | final data =>
        rw [hkind] at hatomic
        exact absurd rfl hatomic
      | compound i =>
        have hk : (chart.kind n).isCompound = true := by rw [hkind]; rfl
        obtain ⟨c, below, hchild, -, hdown⟩ := (activate_compound_iff hkind).mp h
        obtain ⟨rfl, hrest⟩ := covers_of_activeChild hchild hcovers
        have hcn := parent_of_activeChild wf hkind hchild
        have := wf.parent_lt hcn
        have hc := hsub c (subset_activate (NodeSet.mem_insert.mpr (Or.inl rfl)) hdown)
        have hbelow : (chart.addressBelow configuration fuel c).coversKeys keys = true := by
          rcases hrest with rfl | ⟨child, rfl, hrest⟩
          · apply StateValue.coversKeys_nil
          · apply ih hc (by omega) hdown hsub hrest
        rw [addressBelow_of_isCompound wf legal hk hc hcn]
        split
        · next hleaf =>
          rw [addressBelow_of_isAtomic hleaf] at hbelow
          exact StateValue.coversKeys_leaf_iff.mpr ⟨StateValue.eq_nil_of_coversKeys hbelow, rfl⟩
        · exact StateValue.coversKeys_branch_iff.mpr ⟨_, by simp, hbelow⟩
      | parallel =>
        have hk : (chart.kind n).isParallel = true := by rw [hkind]; rfl
        rw [addressBelow_of_isParallel hk]
        apply StateValue.coversKeys_branch_iff.mpr
        obtain ⟨values, hvalues, hregions⟩ := (activate_parallel_iff hkind).mp h
        cases v with
        | leaf own => cases hvalues
        | branch children =>
          obtain ⟨child, hchild, hbelow⟩ := StateValue.coversKeys_branch_iff.mp hcovers
          obtain ⟨rfl, r, hr, rfl⟩ := exists_region_of_regionValues hvalues hchild
          obtain ⟨t, t', rest, hstep, hrest⟩ := Outcome.exists_of_mem_foldlM hregions hr
          rw [hchild] at hstep
          have := wf.parent_lt (parent_of_mem_regions wf hr)
          use chart.addressBelow configuration fuel r, lookup_regionAddresses hkeys hr
          apply ih (legal.regions_mem hn hk hr) (by omega) hstep _ hbelow
          intro x hx
          apply hsub x
          apply Outcome.foldlM_preserves (P := fun s => x ∈ s) _ hx hrest
          intro s r t hs ht
          apply subset_activate (NodeSet.mem_insert_of_mem hs) ht
      | history depth defaults =>
        have hnot := legal.not_history hn
        rw [hkind] at hnot
        cases hnot

end WellFormed

/-- Where the children of each node have distinct keys, a legal configuration is the one that
its address names, and a value that names a configuration names a legal one, whose address
covers every path that the value covers. -/
theorem address_inverse {m : Document.Machine} (h : ofDocument m = .ok chart)
    (hkeys : chart.DistinctKeys) :
  (∀ configuration, chart.Legal configuration →
    chart.configurationOf (chart.address configuration) = .ok configuration) ∧
  ∀ value configuration, chart.configurationOf value = .ok configuration →
    chart.Legal configuration ∧
    ∀ path, value.covers path = true → (chart.address configuration).covers path = true
  := by
  have wf := wellFormed_of_ofDocument h
  constructor
  · intro configuration legal
    apply wf.configurationOf_address hkeys legal
  · intro value configuration hnames
    have legal := legal_of_configurationOf wf hnames
    use legal
    intro path hcovers
    rw [configurationOf] at hnames
    split at hnames
    · next s hs =>
      cases hnames
      apply wf.coversKeys_addressBelow hkeys legal legal.root_mem (Nat.le_add_right _ _) hs
        (fun x hx => hx) hcovers
    · cases hnames

/-- A compound machine over a parallel node with an atomic region and one whose state has
states of its own. -/
def nested : Document.Machine where
  root := .node { initial := some "p" }
    [("p", .node { type := some .parallel }
      [("left", .node {} []),
       ("right", .node { initial := some "x" }
        [("x", .node { initial := some "a" } [("a", .node {} []), ("b", .node {} [])]),
         ("y", .node {} [])])]),
     ("q", .node {} [])]

theorem address_inverse_nested :
  ∃ chart, ofDocument nested = .ok chart ∧ chart.DistinctKeys ∧
    chart.Legal [0, 1, 2, 3, 4, 6] ∧
    chart.configurationOf (chart.address [0, 1, 2, 3, 4, 6]) = .ok [0, 1, 2, 3, 4, 6] ∧
    chart.configurationOf (.branch [("p", .branch [("right", .leaf "x")])]) =
      .ok [0, 1, 2, 3, 4, 5] ∧
    (chart.address [0, 1, 2, 3, 4, 5]).covers "p.right.x" = true
  := by
  obtain ⟨chart, h, hp⟩ := Outcome.exists_of_any (x := ofDocument nested)
    (p := fun chart => chart.DistinctKeys ∧ chart.Legal [0, 1, 2, 3, 4, 6] ∧
      (chart.configurationOf (.branch [("p", .branch [("right", .leaf "x")])])).toOption.any
        (· = [0, 1, 2, 3, 4, 5]) ∧
      StateValue.covers (.branch [("p", .branch [("right", .leaf "x")])]) "p.right.x" = true)
    (by decide +kernel)
  obtain ⟨hkeys, legal, hany, hcovers⟩ := of_decide_eq_true hp
  obtain ⟨configuration, hnames, hconfiguration⟩ := Outcome.exists_of_any hany
  rw [of_decide_eq_true hconfiguration] at hnames
  use chart, h, hkeys, legal
  obtain ⟨hback, hforth⟩ := address_inverse h hkeys
  use hback _ legal, hnames
  exact (hforth _ _ hnames).2 _ hcovers

end Chart

end Statechart
