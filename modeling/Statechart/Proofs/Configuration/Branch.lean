import Statechart.Proofs.Configuration.Legal
import Statechart.Resolution.Entry

/-!
# Branches

A branch is a legal configuration of the subtree of a node.  A branch at the root is a legal
configuration, and branches at the active children of a node make one at the node.  `Fills`
is what the descents have in common: a set without nodes below `n` is extended by a branch
at `n`.
-/

namespace Statechart.Chart

/-- What holds of the active nodes of the subtree of a node. -/
structure Branch (chart : Chart) (n : Nat) (active : Nat → Prop) : Prop where
  top : active n
  within : ∀ {k}, active k → chart.Within k n
  lt_length : ∀ {k}, active k → k < chart.nodes.length
  parent : ∀ {k}, active k → k ≠ n → ∃ q, chart.parent? k = some q ∧ active q
  child : ∀ {k}, active k → (chart.kind k).isCompound = true →
    ∃! c, active c ∧ chart.parent? c = some k
  regions : ∀ {k r}, active k → (chart.kind k).isParallel = true → r ∈ chart.regions k → active r
  not_history : ∀ {k}, active k → (chart.kind k).isHistory = false

/-- A set is extended by a branch at a node. -/
structure Fills (chart : Chart) (n : Nat) (s s' : NodeSet) : Prop where
  mono : ∀ {k}, k ∈ s → k ∈ s'
  new : ∀ {k}, k ∈ s' → k ∈ s ∨ chart.Within k n
  branch : chart.Branch n (fun k => k ∈ s' ∧ chart.Within k n)

/-- No node of a set lies below a node. -/
def Clear (chart : Chart) (s : NodeSet) (n : Nat) : Prop :=
  ∀ k ∈ s, ¬ chart.isBelow k n = true

variable {chart : Chart} {n c k : Nat} {s s' : NodeSet} {active active' : Nat → Prop}

theorem not_holdsBelow_iff :
  chart.holdsBelow s n = false ↔ chart.Clear s n
  := by
  simp [holdsBelow, Clear]

theorem mem_regions :
  c ∈ chart.regions n ↔ c ∈ chart.children n ∧ (chart.kind c).isHistory = false
  := by
  simp [regions]

namespace Branch

/-- A branch depends on which nodes are active alone. -/
theorem congr (h : chart.Branch n active) (heq : ∀ k, active k ↔ active' k) :
  chart.Branch n active'
  := by
  rw [← show active = active' from funext (fun k => propext (heq k))]
  exact h

/-- Between the top of a branch and one of its nodes all nodes are active. -/
theorem active_of_within (wf : chart.WellFormed) (h : chart.Branch n active) {a : Nat}
    (hk : active k) (hka : chart.Within k a) (han : chart.Within a n) :
  active a
  := by
  induction k using Nat.strongRecOn with
  | _ k ih =>
    rcases hka with rfl | hka
    · exact hk
    · have hne : k ≠ n := by
        rintro rfl
        apply wf.not_isBelow_of_within han hka
      obtain ⟨q, hq, hactive⟩ := h.parent hk hne
      apply ih q (wf.parent_lt hq) hactive (wf.within_parent hq hka)

/-- An atomic node is a branch. -/
theorem atomic (hn : n < chart.nodes.length)
    (hk : (chart.kind n).isAtomic = true) :
  chart.Branch n (fun k => k = n)
  := by
  obtain ⟨hcompound, hparallel, hhistory⟩ := Kind.plain_of_isAtomic hk
  constructor
  case top => rfl
  case within =>
    rintro k rfl
    apply within_refl chart k
  case lt_length =>
    rintro k rfl
    exact hn
  case parent =>
    intro k hk hne
    exact absurd hk hne
  case child =>
    rintro k rfl hc
    rw [hcompound] at hc
    cases hc
  case regions =>
    rintro k r rfl hp
    rw [hparallel] at hp
    cases hp
  case not_history =>
    rintro k rfl
    exact hhistory

/-- A compound node with a branch at one child is a branch. -/
theorem compound (wf : chart.WellFormed) (hk : (chart.kind n).isCompound = true)
    (hc : chart.parent? c = some n) (h : chart.Branch c active) :
  chart.Branch n (fun k => k = n ∨ active k)
  := by
  obtain ⟨-, hparallel, hhistory⟩ := Kind.plain_of_isCompound hk
  have hcn := wf.isBelow_of_parent hc
  have hout : ∀ {k q}, active k → chart.parent? k = some q → q = n → k = c := by
    rintro k q hactive hq rfl
    rcases h.within hactive with rfl | hbelow
    · rfl
    · exact absurd (wf.within_parent hq hbelow) (wf.not_within_of_parent hc)
  have hchildless : ∀ {k}, active k → chart.parent? n ≠ some k := by
    intro k hactive hp
    apply wf.not_isBelow_of_within (wf.within_trans (h.within hactive) (Or.inr hcn))
      (wf.isBelow_of_parent hp)
  constructor
  case top => exact Or.inl rfl
  case within =>
    rintro k (rfl | hactive)
    · apply within_refl chart k
    · exact Or.inr (wf.within_isBelow (h.within hactive) hcn)
  case lt_length =>
    rintro k (rfl | hactive)
    · apply wf.lt_length_of_within (lt_of_parent hc) (Or.inr hcn)
    · apply h.lt_length hactive
  case parent =>
    rintro k (rfl | hactive) hne
    · exact absurd rfl hne
    · by_cases hkc : k = c
      · subst hkc
        exact ⟨n, hc, Or.inl rfl⟩
      · obtain ⟨q, hq, hqa⟩ := h.parent hactive hkc
        exact ⟨q, hq, Or.inr hqa⟩
  case child =>
    rintro k (rfl | hactive) hkind
    · refine ⟨c, ⟨Or.inr h.top, hc⟩, ?_⟩
      rintro c' ⟨rfl | hactive', hc'⟩
      · exact absurd (wf.isBelow_of_parent hc') (wf.not_isBelow_self c')
      · apply hout hactive' hc' rfl
    · obtain ⟨c', ⟨hc', hparent⟩, hunique⟩ := h.child hactive hkind
      refine ⟨c', ⟨Or.inr hc', hparent⟩, ?_⟩
      rintro c'' ⟨rfl | hactive', hc''⟩
      · exact absurd hc'' (hchildless hactive)
      · apply hunique c'' ⟨hactive', hc''⟩
  case regions =>
    rintro k r (rfl | hactive) hkind hr
    · rw [hparallel] at hkind
      cases hkind
    · exact Or.inr (h.regions hactive hkind hr)
  case not_history =>
    rintro k (rfl | hactive)
    · exact hhistory
    · apply h.not_history hactive

/-- A parallel node with a branch at each region is a branch. -/
theorem parallel (wf : chart.WellFormed) (hn : n < chart.nodes.length)
    (hk : (chart.kind n).isParallel = true)
    (h : ∀ r ∈ chart.regions n, chart.Branch r (fun k => active k ∧ chart.Within k r)) :
  chart.Branch n (fun k => k = n ∨ ∃ r ∈ chart.regions n, active k ∧ chart.Within k r)
  := by
  obtain ⟨-, hcompound, hhistory⟩ := Kind.plain_of_isParallel hk
  have hparent : ∀ {r}, r ∈ chart.regions n → chart.parent? r = some n := by
    intro r hr
    apply wf.parent_of_mem_children (mem_regions.mp hr).1
  have hinside : ∀ {k r}, r ∈ chart.regions n → chart.Within k r → chart.isBelow k n = true := by
    intro k r hr hkr
    apply wf.within_isBelow hkr (wf.isBelow_of_parent (hparent hr))
  constructor
  case top => exact Or.inl rfl
  case within =>
    rintro k (rfl | ⟨r, hr, -, hkr⟩)
    · apply within_refl chart k
    · exact Or.inr (hinside hr hkr)
  case lt_length =>
    rintro k (rfl | ⟨r, hr, hactive⟩)
    · exact hn
    · exact (h r hr).lt_length hactive
  case parent =>
    rintro k (rfl | ⟨r, hr, hactive⟩) hne
    · exact absurd rfl hne
    · by_cases hkr : k = r
      · subst hkr
        exact ⟨n, hparent hr, Or.inl rfl⟩
      · obtain ⟨q, hq, hqa⟩ := (h r hr).parent hactive hkr
        exact ⟨q, hq, Or.inr ⟨r, hr, hqa⟩⟩
  case child =>
    rintro k (rfl | ⟨r, hr, hactive⟩) hkind
    · rw [hcompound] at hkind
      cases hkind
    · obtain ⟨c, ⟨hc, hck⟩, hunique⟩ := (h r hr).child hactive hkind
      refine ⟨c, ⟨Or.inr ⟨r, hr, hc⟩, hck⟩, ?_⟩
      rintro c' ⟨rfl | ⟨r', hr', hactive', hcr'⟩, hc'⟩
      · -- the top of the branch is no child of one of its nodes
        exact absurd (wf.isBelow_of_parent hc')
          (wf.not_isBelow_of_within (Or.inr (hinside hr hactive.2)))
      · have hcr : chart.Within c' r := Or.inr (wf.isBelow_of_parent_within hc' hactive.2)
        have heq := wf.child_unique (hparent hr) (hparent hr') hcr hcr'
        subst heq
        apply hunique c' ⟨⟨hactive', hcr'⟩, hc'⟩
  case regions =>
    rintro k r' (rfl | ⟨r, hr, hactive⟩) hkind hr'
    · exact Or.inr ⟨r', hr', (h r' hr').top⟩
    · exact Or.inr ⟨r, hr, (h r hr).regions hactive hkind hr'⟩
  case not_history =>
    rintro k (rfl | ⟨r, hr, hactive⟩)
    · exact hhistory
    · exact (h r hr).not_history hactive

end Branch

/-- An increasing set that is a branch at the root is a legal configuration. -/
theorem legal_of_branch (wf : chart.WellFormed) (hincreasing : s.Pairwise (· < ·))
    (h : chart.Branch root (· ∈ s)) :
  chart.Legal s
  := by
  constructor
  case increasing => exact hincreasing
  case lt_length => exact h.lt_length
  case root_mem => apply h.top
  case parent_mem =>
    intro n p hn hp
    have hne : n ≠ root := by
      rintro rfl
      rw [wf.parent_root] at hp
      cases hp
    obtain ⟨q, hq, hactive⟩ := h.parent hn hne
    rw [hp, Option.some.injEq] at hq
    rw [hq]
    exact hactive
  case child => exact h.child
  case regions_mem => exact h.regions
  case not_history => exact h.not_history

/-! ### Filled subtrees -/

namespace Fills

theorem atomic (hn : n < chart.nodes.length) (hk : (chart.kind n).isAtomic = true)
    (hclear : chart.Clear s n) :
  chart.Fills n s (NodeSet.insert n s)
  := by
  constructor
  case mono =>
    intro k hks
    apply NodeSet.mem_insert_of_mem hks
  case new =>
    intro k hks
    rcases NodeSet.mem_insert.mp hks with rfl | hks
    · exact Or.inr (within_refl chart k)
    · exact Or.inl hks
  case branch =>
    apply (Branch.atomic hn hk).congr
    intro k
    constructor
    · rintro rfl
      exact ⟨NodeSet.mem_insert.mpr (Or.inl rfl), within_refl chart k⟩
    · rintro ⟨hks, hkn⟩
      rcases NodeSet.mem_insert.mp hks with rfl | hks
      · rfl
      · apply hkn.resolve_right (hclear k hks)

theorem compound (wf : chart.WellFormed) (hk : (chart.kind n).isCompound = true)
    (hc : chart.parent? c = some n) (hclear : chart.Clear s n)
    (h : chart.Fills c (NodeSet.insert n s) s') :
  chart.Fills n s s'
  := by
  have hbelow : ∀ {k}, chart.Within k c → chart.Within k n := by
    intro k hkc
    exact Or.inr (wf.within_isBelow hkc (wf.isBelow_of_parent hc))
  constructor
  case mono =>
    intro k hks
    apply h.mono (NodeSet.mem_insert_of_mem hks)
  case new =>
    intro k hks'
    rcases h.new hks' with hks | hkc
    · rcases NodeSet.mem_insert.mp hks with rfl | hks
      · exact Or.inr (within_refl chart k)
      · exact Or.inl hks
    · exact Or.inr (hbelow hkc)
  case branch =>
    apply (Branch.compound wf hk hc h.branch).congr
    intro k
    constructor
    · rintro (rfl | ⟨hks', hkc⟩)
      · exact ⟨h.mono (NodeSet.mem_insert.mpr (Or.inl rfl)), within_refl chart k⟩
      · exact ⟨hks', hbelow hkc⟩
    · rintro ⟨hks', hkn⟩
      rcases h.new hks' with hks | hkc
      · rcases NodeSet.mem_insert.mp hks with rfl | hks
        · exact Or.inl rfl
        · exact Or.inl (hkn.resolve_right (hclear k hks))
      · exact Or.inr ⟨hks', hkc⟩

theorem parallel (wf : chart.WellFormed) (hn : n < chart.nodes.length)
    (hk : (chart.kind n).isParallel = true) (hclear : chart.Clear s n)
    (mono : ∀ {k}, k ∈ NodeSet.insert n s → k ∈ s')
    (new : ∀ {k}, k ∈ s' → k ∈ NodeSet.insert n s ∨ ∃ r ∈ chart.regions n, chart.Within k r)
    (h : ∀ r ∈ chart.regions n, chart.Branch r (fun k => k ∈ s' ∧ chart.Within k r)) :
  chart.Fills n s s'
  := by
  have hbelow : ∀ {k r}, r ∈ chart.regions n → chart.Within k r → chart.Within k n := by
    intro k r hr hkr
    have hp := wf.parent_of_mem_children (mem_regions.mp hr).1
    exact Or.inr (wf.within_isBelow hkr (wf.isBelow_of_parent hp))
  constructor
  case mono =>
    intro k hks
    apply mono (NodeSet.mem_insert_of_mem hks)
  case new =>
    intro k hks'
    rcases new hks' with hks | ⟨r, hr, hkr⟩
    · rcases NodeSet.mem_insert.mp hks with rfl | hks
      · exact Or.inr (within_refl chart k)
      · exact Or.inl hks
    · exact Or.inr (hbelow hr hkr)
  case branch =>
    apply (Branch.parallel wf hn hk h).congr
    intro k
    constructor
    · rintro (rfl | ⟨r, hr, hks', hkr⟩)
      · exact ⟨mono (NodeSet.mem_insert.mpr (Or.inl rfl)), within_refl chart k⟩
      · exact ⟨hks', hbelow hr hkr⟩
    · rintro ⟨hks', hkn⟩
      rcases new hks' with hks | ⟨r, hr, hkr⟩
      · rcases NodeSet.mem_insert.mp hks with rfl | hks
        · exact Or.inl rfl
        · exact Or.inl (hkn.resolve_right (hclear k hks))
      · exact Or.inr ⟨r, hr, hks', hkr⟩

/-- A branch stays one when nodes outside its subtree are added. -/
theorem branch_mono (h : ∀ {k}, k ∈ s → k ∈ s')
    (hnew : ∀ {k}, k ∈ s' → chart.Within k n → k ∈ s)
    (hbranch : chart.Branch n (fun k => k ∈ s ∧ chart.Within k n)) :
  chart.Branch n (fun k => k ∈ s' ∧ chart.Within k n)
  := by
  apply hbranch.congr
  intro k
  constructor
  · rintro ⟨hks, hkn⟩
    exact ⟨h hks, hkn⟩
  · rintro ⟨hks', hkn⟩
    exact ⟨hnew hks' hkn, hkn⟩

end Fills

/-- The descents of a list of regions fill those that hold no node yet. -/
structure Completes (chart : Chart) (regions : List Nat) (s s' : NodeSet) : Prop where
  mono : ∀ {k}, k ∈ s → k ∈ s'
  new : ∀ {k}, k ∈ s' → k ∈ s ∨ ∃ r ∈ regions, chart.Clear s r ∧ chart.Within k r
  branch : ∀ r ∈ regions, chart.Clear s r → chart.Branch r (fun k => k ∈ s' ∧ chart.Within k r)

namespace Completes

variable {regions : List Nat} {r : Nat} {t : NodeSet}

theorem nil (s : NodeSet) :
  chart.Completes [] s s
  := by
  constructor
  case mono => exact fun hk => hk
  case new => exact fun hk => Or.inl hk
  case branch =>
    intro r hr
    cases hr

/-- A region that holds a node is passed over. -/
theorem skip (hheld : ¬ chart.Clear s r) (h : chart.Completes regions s s') :
  chart.Completes (r :: regions) s s'
  := by
  constructor
  case mono => exact h.mono
  case new =>
    intro k hk
    rcases h.new hk with hks | ⟨r', hr', hrest⟩
    · exact Or.inl hks
    · exact Or.inr ⟨r', List.mem_cons_of_mem r hr', hrest⟩
  case branch =>
    intro r' hr' hclear
    rcases List.mem_cons.mp hr' with rfl | hr'
    · exact absurd hclear hheld
    · apply h.branch r' hr' hclear

/-- A region that holds no node is filled. -/
theorem cons (wf : chart.WellFormed) (hregions : ∀ r' ∈ r :: regions, chart.parent? r' = some n)
    (hr : r ∉ regions) (hclear : chart.Clear s r) (hfills : chart.Fills r s t)
    (h : chart.Completes regions t s') :
  chart.Completes (r :: regions) s s'
  := by
  -- the nodes within `r` do not lie within another region
  have hother : ∀ {r' k}, r' ∈ regions → chart.Within k r → ¬ chart.Within k r' := by
    intro r' k hr' hkr hkr'
    have heq := wf.child_unique (hregions r List.mem_cons_self)
      (hregions r' (List.mem_cons_of_mem r hr')) hkr hkr'
    rw [heq] at hr
    apply hr hr'
  have hclear_iff : ∀ {r'}, r' ∈ regions → (chart.Clear t r' ↔ chart.Clear s r') := by
    intro r' hr'
    constructor
    · intro h k hk
      apply h k (hfills.mono hk)
    · intro h k hk
      rcases hfills.new hk with hk | hkr
      · apply h k hk
      · exact fun hkr' => hother hr' hkr (Or.inr hkr')
  constructor
  case mono => exact fun hk => h.mono (hfills.mono hk)
  case new =>
    intro k hk
    rcases h.new hk with hk | ⟨r', hr', hclear', hkr'⟩
    · rcases hfills.new hk with hk | hkr
      · exact Or.inl hk
      · exact Or.inr ⟨r, List.mem_cons_self, hclear, hkr⟩
    · exact Or.inr ⟨r', List.mem_cons_of_mem r hr', (hclear_iff hr').mp hclear', hkr'⟩
  case branch =>
    intro r' hr' hclear'
    rcases List.mem_cons.mp hr' with rfl | hr'
    · apply Fills.branch_mono h.mono _ hfills.branch
      intro k hk hkr
      rcases h.new hk with hk | ⟨r'', hr'', -, hkr''⟩
      · exact hk
      · exact absurd hkr'' (hother hr'' hkr)
    · apply h.branch r' hr' ((hclear_iff hr').mpr hclear')

end Completes

/-- The regions of a node are filled one after the other. -/
theorem completes_completeRegions (wf : chart.WellFormed) {add : Nat → NodeSet → NodeSet}
    {regions : List Nat} (hregions : ∀ r ∈ regions, chart.parent? r = some n)
    (hnodup : regions.Nodup)
    (hadd : ∀ r ∈ regions, ∀ s, chart.Clear s r → chart.Fills r s (add r s)) (s : NodeSet) :
  chart.Completes regions s (chart.completeRegions add regions s)
  := by
  induction regions generalizing s with
  | nil => apply Completes.nil s
  | cons r rs ih =>
    obtain ⟨hr, hrs⟩ := List.nodup_cons.mp hnodup
    have ih := fun s => ih (fun r' hr' => hregions r' (List.mem_cons_of_mem r hr')) hrs
      (fun r' hr' => hadd r' (List.mem_cons_of_mem r hr')) s
    rw [completeRegions, List.foldl_cons, ← completeRegions]
    cases hheld : chart.holdsBelow s r with
    | true =>
      apply Completes.skip _ (ih s)
      rw [← not_holdsBelow_iff, hheld]
      simp
    | false =>
      have hclear := not_holdsBelow_iff.mp hheld
      apply Completes.cons wf hregions hr hclear (hadd r List.mem_cons_self s hclear) (ih _)

theorem nodup_regions (wf : chart.WellFormed) (n : Nat) :
  (chart.regions n).Nodup
  := ((wf.children_increasing n).imp (fun h => Nat.ne_of_lt h)).filter _

theorem parent_of_mem_regions (wf : chart.WellFormed) {r : Nat} (h : r ∈ chart.regions n) :
  chart.parent? r = some n
  := wf.parent_of_mem_children (mem_regions.mp h).1

/-- A descent fills the subtree of a node without active nodes below it. -/
theorem fills_descend (wf : chart.WellFormed) {fuel : Nat} (hn : n < chart.nodes.length)
    (hfuel : chart.nodes.length ≤ fuel + n) (hk : (chart.kind n).isHistory = false)
    (hclear : chart.Clear s n) :
  chart.Fills n s (chart.descend fuel n s)
  := by
  induction fuel generalizing n s with
  | zero => omega
  | succ fuel ih =>
    have hchild : ∀ {c s}, chart.parent? c = some n → (chart.kind c).isHistory = false →
        chart.Clear s c → chart.Fills c s (chart.descend fuel c s) := by
      intro c s hc hkc hclearc
      have := wf.parent_lt hc
      apply ih (lt_of_parent hc) (by omega) hkc hclearc
    have hclear_insert : ∀ {c}, chart.parent? c = some n →
        chart.Clear (NodeSet.insert n s) c := by
      intro c hc k hks hkc
      have hcn := wf.isBelow_of_parent hc
      rcases NodeSet.mem_insert.mp hks with rfl | hks
      · apply wf.not_isBelow_of_within (Or.inr hcn) hkc
      · apply hclear k hks (wf.isBelow_trans hkc hcn)
    rw [descend]
    cases hkind : chart.kind n with
    | atomic => apply Fills.atomic hn (by rw [hkind]; rfl) hclear
    | final data => apply Fills.atomic hn (by rw [hkind]; rfl) hclear
    | compound i =>
      obtain ⟨hi, hki⟩ := wf.initial hkind
      have hi := wf.parent_of_mem_children hi
      apply Fills.compound wf (by rw [hkind]; rfl) hi hclear
      apply hchild hi hki (hclear_insert hi)
    | parallel =>
      have hcompletes := completes_completeRegions wf
        (fun r hr => parent_of_mem_regions wf hr) (nodup_regions wf n)
        (fun r hr s hclear => hchild (parent_of_mem_regions wf hr) (mem_regions.mp hr).2 hclear)
        (NodeSet.insert n s)
      apply Fills.parallel wf hn (by rw [hkind]; rfl) hclear hcompletes.mono
      · intro k hks
        rcases hcompletes.new hks with hks | ⟨r, hr, -, hkr⟩
        · exact Or.inl hks
        · exact Or.inr ⟨r, hr, hkr⟩
      · intro r hr
        apply hcompletes.branch r hr (hclear_insert (parent_of_mem_regions wf hr))
    | history depth defaults =>
      rw [hkind] at hk
      cases hk

/-- The default descendants of a node fill its subtree. -/
theorem fills_addDefaults (wf : chart.WellFormed) (hn : n < chart.nodes.length)
    (hk : (chart.kind n).isHistory = false) (hclear : chart.Clear s n) :
  chart.Fills n s (chart.addDefaults n s)
  := fills_descend wf hn (by rw [depthBound]; omega) hk hclear

end Statechart.Chart
