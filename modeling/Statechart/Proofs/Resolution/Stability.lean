import Statechart.Proofs.Resolution.History

/-!
# Stability of scopes

A microstep chooses the nodes to exit before the histories are recorded and the nodes to
enter afterwards.  If deep histories are sound (`SoundHistories`), a transition moves inside
the same node both times (`scope_recorded`).
-/

namespace Statechart

/-- Whether a node of this kind records the active leaves below its parent. -/
def Kind.isDeep : Kind → Bool
  | .history .deep _ => true
  | _ => false

theorem Kind.eq_history_of_isDeep {kind : Kind} (h : kind.isDeep = true) :
  ∃ defaults, kind = .history .deep defaults
  := by
  cases kind with
  | history depth defaults =>
    cases depth with
    | deep => exact ⟨defaults, rfl⟩
    | shallow => cases h
  | _ => cases h

namespace Chart

open Progress (recording recorded)

/-- Whether each parallel node below a node has a region. -/
def RegionsBelow (chart : Chart) (n : Nat) : Prop :=
  ∀ z, chart.isBelow z n = true → (chart.kind z).isParallel = true → chart.regions z ≠ []

instance (chart : Chart) (n : Nat) : Decidable (chart.RegionsBelow n) :=
  decidable_of_iff
    (∀ z ∈ List.range chart.nodes.length, chart.isBelow z n = true →
      (chart.kind z).isParallel = true → chart.regions z ≠ []) (by
      constructor
      · intro hall z hz
        apply hall z (List.mem_range.mpr (lt_length_of_isBelow hz)) hz
      · intro hall z _
        apply hall z)

/-- Whether the deep histories that transitions lead to restore what was active: each
parallel node below the parent of such a history node has a region, and if a transition to
it comes from below a parallel parent, the parent has not just one region. -/
def SoundHistories (chart : Chart) : Prop :=
  ∀ n, ∀ t ∈ chart.transitions n, ∀ h ∈ t.targets, ∀ p ∈ chart.parent? h,
    (chart.kind h).isDeep = true →
      chart.RegionsBelow p ∧ ((chart.kind p).isParallel = true →
        chart.isBelow t.source p = true → (chart.regions p).length ≠ 1)

instance (chart : Chart) : Decidable chart.SoundHistories :=
  decidable_of_iff
    (∀ n ∈ List.range chart.nodes.length, ∀ t ∈ chart.transitions n, ∀ h ∈ t.targets,
      ∀ p ∈ (chart.parent? h).toList, (chart.kind h).isDeep = true →
        chart.RegionsBelow p ∧ ((chart.kind p).isParallel = true →
          chart.isBelow t.source p = true → (chart.regions p).length ≠ 1)) (by
      constructor
      · intro hall n t ht h hh p hp
        apply hall n (List.mem_range.mpr (lt_of_mem_transitions ht)) t ht h hh p
          (Option.mem_toList.mpr hp)
      · intro hall n _ t ht h hh p hp
        apply hall n t ht h hh p (Option.mem_toList.mp hp))

variable {chart : Chart} {history : History} {configuration : NodeSet} {t : Transition}
  {ts : List Transition} {n h p a d d' x : Nat} {depth : HistoryDepth}
  {defaults targets targets' : List Nat}

namespace WellFormed

variable (wf : chart.WellFormed)

include wf

/-! ### Active leaves -/

/-- An active node below which each parallel node has a region has an active leaf. -/
theorem exists_leaf (legal : chart.Legal configuration) (hn : n ∈ configuration)
    (hregions : ∀ z, chart.Within z n → (chart.kind z).isParallel = true → chart.regions z ≠ []) :
  ∃ y ∈ configuration, (chart.kind y).isAtomic = true ∧ chart.Within y n
  := by
  obtain ⟨size, hsize⟩ : ∃ size, chart.nodes.length - n = size := ⟨_, rfl⟩
  induction size using Nat.strongRecOn generalizing n with
  | _ size ih =>
    have hlt := legal.lt_length hn
    have hchild : ∀ {c}, c ∈ configuration → chart.parent? c = some n →
        ∃ y ∈ configuration, (chart.kind y).isAtomic = true ∧ chart.Within y n := by
      intro c hc hcn
      have hbelow := wf.isBelow_of_parent hcn
      have hnc := wf.parent_lt hcn
      have hclt := legal.lt_length hc
      obtain ⟨y, hy, hk, hyc⟩ := ih _ (by omega) hc
        (fun z hzc => hregions z (Or.inr (wf.within_isBelow hzc hbelow))) rfl
      exact ⟨y, hy, hk, Or.inr (wf.within_isBelow hyc hbelow)⟩
    cases hk : chart.kind n with
    | compound i =>
      obtain ⟨c, ⟨hc, hcn⟩, -⟩ := legal.child hn (by rw [hk]; rfl)
      apply hchild hc hcn
    | parallel =>
      have hparallel : (chart.kind n).isParallel = true := by rw [hk]; rfl
      obtain ⟨r, hr⟩ := List.exists_mem_of_ne_nil _ (hregions n (within_refl chart n) hparallel)
      apply hchild (legal.regions_mem hn hparallel hr) (parent_of_mem_regions wf hr)
    | history depth defaults =>
      have hnot := legal.not_history hn
      rw [hk] at hnot
      cases hnot
    | atomic => exact ⟨n, hn, by rw [hk]; rfl, within_refl chart n⟩
    | final data => exact ⟨n, hn, by rw [hk]; rfl, within_refl chart n⟩

/-- The region of a parallel node that leads to an active node below it. -/
theorem exists_region (legal : chart.Legal configuration) (hx : x ∈ configuration)
    (hxp : chart.isBelow x p = true) :
  ∃ r ∈ chart.regions p, r ∈ configuration ∧ chart.Within x r
  := by
  obtain ⟨r, hr, hxr⟩ := wf.exists_child hxp
  have hactive := legal.mem_of_within wf hx hxr
  exact ⟨r, mem_regions.mpr ⟨wf.mem_children.mpr hr, legal.not_history hactive⟩, hactive, hxr⟩

/-- A history node records nothing exactly if its parent has no regions; for deep histories
each parallel node below the parent has to have a region. -/
theorem recording_eq_nil_iff (legal : chart.Legal configuration) (hp : p ∈ configuration)
    (hinner : (chart.kind p).isCompound = true ∨ (chart.kind p).isParallel = true)
    (hdeep : depth = .deep → chart.RegionsBelow p) :
  recording chart configuration p depth = [] ↔ chart.regions p = []
  := by
  -- an active child of `p` makes a record
  have hchild : ∀ {c}, c ∈ configuration → chart.parent? c = some p →
      recording chart configuration p depth ≠ [] := by
    intro c hc hcp
    cases depth with
    | deep =>
      have hbelow := wf.isBelow_of_parent hcp
      obtain ⟨y, hy, hk, hyc⟩ := wf.exists_leaf legal hc
        (fun z hz => hdeep rfl z (wf.within_isBelow hz hbelow))
      apply List.ne_nil_of_mem (mem_recording_deep.mpr ⟨hy, hk, wf.within_isBelow hyc hbelow⟩)
    | shallow => apply List.ne_nil_of_mem (mem_recording_shallow.mpr ⟨hc, hcp⟩)
  constructor
  · intro hnil
    apply List.eq_nil_iff_forall_not_mem.mpr
    intro r hr
    rcases hinner with hk | hk
    · obtain ⟨c, ⟨hc, hcp⟩, -⟩ := legal.child hp hk
      apply hchild hc hcp hnil
    · apply hchild (legal.regions_mem hp hk hr) (parent_of_mem_regions wf hr) hnil
  · intro hnil
    apply List.eq_nil_iff_forall_not_mem.mpr
    intro x hx
    obtain ⟨hactive, hxp⟩ := wf.mem_recording hx
    obtain ⟨r, hr, -⟩ := wf.exists_region legal hactive hxp
    rw [hnil] at hr
    cases hr

theorem landings_eq_nil_iff (hremembers : chart.Remembers history)
    (hsiblings : chart.SiblingDefaults) (hk : chart.kind h = .history depth defaults)
    (hp : chart.parent? h = some p)
    (hdeep : depth = .deep → chart.RegionsBelow p) :
  chart.landings history h = [] ↔ chart.regions p = []
  := by
  have hinner := wf.inner (wf.mem_children.mpr hp)
  rcases wf.landings_cases hremembers hsiblings hk hp with
    ⟨configuration, legal, hactive, -, heq⟩ | ⟨hlookup, -, hchildren, -⟩
  · rw [heq]
    apply wf.recording_eq_nil_iff legal hactive hinner hdeep
  · constructor
    · intro hnil
      rw [landings, hk] at hnil
      dsimp only at hnil
      rw [restored, hlookup, historyDefault, hp] at hnil
      dsimp only at hnil
      split at hnil
      · next hne =>
        rw [hnil] at hne
        cases hne
      · split at hnil
        · cases hnil
        · exact hnil
    · intro hnil
      apply List.eq_nil_iff_forall_not_mem.mpr
      intro x hx
      obtain ⟨hxp, hplain⟩ := hchildren x hx
      have hr := mem_regions.mpr ⟨wf.mem_children.mpr hxp, hplain⟩
      rw [hnil] at hr
      cases hr

/-- Inside a history node, each region of a parallel node on the way to a landing holds a
landing, provided that each parallel node below the parent of a deep one has a region. -/
theorem exists_landing (hremembers : chart.Remembers history) (hsiblings : chart.SiblingDefaults)
    (hk : (chart.kind h).isHistory = true) (hp : chart.parent? h = some p)
    (hdeep : (chart.kind h).isDeep = true → chart.RegionsBelow p) {q r : Nat}
    (hx : x ∈ chart.landings history h) (hxq : chart.isBelow x q = true)
    (hqp : chart.isBelow q p = true) (hparallel : (chart.kind q).isParallel = true)
    (hr : r ∈ chart.regions q) :
  (∃ y ∈ chart.landings history h, chart.isBelow y r = true) ∨
    r ∈ chart.landings history h ∧ (chart.kind r).isAtomic = true
  := by
  -- the landings lie deeper than the children of `p`
  have hchild : chart.parent? x ≠ some p := by
    intro hxp
    apply wf.not_isBelow_of_within (wf.within_parent hxp hxq) hqp
  cases hkind : chart.kind h with
  | history depth defaults =>
    rcases wf.landings_cases hremembers hsiblings hkind hp with
      ⟨configuration, legal, -, -, heq⟩ | ⟨-, -, hchildren, -⟩
    · rw [heq] at hx ⊢
      cases depth with
      | shallow => exact absurd (mem_recording_shallow.mp hx).2 hchild
      | deep =>
        obtain ⟨hx, -, -⟩ := mem_recording_deep.mp hx
        have hq := legal.mem_of_within wf hx (Or.inr hxq)
        have hrq := wf.isBelow_of_parent (parent_of_mem_regions wf hr)
        have hrp := wf.isBelow_trans hrq hqp
        obtain ⟨y, hy, hatomic, hyr⟩ := wf.exists_leaf legal (legal.regions_mem hq hparallel hr)
          (fun z hz => hdeep (by rw [hkind]; rfl) z (wf.within_isBelow hz hrp))
        have hrecorded := mem_recording_deep.mpr ⟨hy, hatomic, wf.within_isBelow hyr hrp⟩
        rcases hyr with rfl | hyr
        · exact Or.inr ⟨hrecorded, hatomic⟩
        · exact Or.inl ⟨y, hrecorded, hyr⟩
    · exact absurd (hchildren x hx).1 hchild
  | _ =>
    rw [hkind] at hk
    cases hk

/-! ### Domains -/

/-- If targets below `p` are replaced by others below `p`, a candidate for the domain that
has one of them elsewhere has one of the new targets elsewhere, unless `p` is no ceiling and
the new targets lie together below a node that is nearer to the source. -/
theorem exists_target_outside {n z : Nat}
    (hp : chart.isBelow p (chart.commonAncestor n targets) = true)
    (htargets : ∀ x ∈ targets, chart.isBelow x p = true)
    (htargets' : ∀ x ∈ targets', chart.isBelow x p = true) (hne' : targets' ≠ [])
    (hspread : ¬ chart.IsCeiling p → ∀ z, chart.isBelow z p = true →
      chart.Within n z → ∃ y ∈ targets', ¬ chart.isBelow y z = true)
    (hz : chart.Within n z) (hout : ∃ y ∈ targets, ¬ chart.isBelow y z = true) :
  ∃ y ∈ targets', ¬ chart.isBelow y z = true
  := by
  by_contra hall
  simp only [not_exists, not_and, not_not] at hall
  obtain ⟨x', hx'⟩ := List.exists_mem_of_ne_nil _ hne'
  obtain ⟨y, hy, hyz⟩ := hout
  have hpz : ¬ chart.Within p z := fun hpz => hyz (wf.isBelow_of_within (htargets y hy) hpz)
  have hzp : chart.isBelow z p = true := by
    rcases wf.within_total (Or.inr (htargets' x' hx')) (Or.inr (hall x' hx')) with h | h
    · exact absurd h hpz
    · exact h
  have hnp := wf.within_isBelow hz hzp
  by_cases hceilingp : chart.IsCeiling p
  · -- `p` itself would be a nearer common ancestor
    rcases wf.commonAncestor_spec n targets with ⟨-, -, -, hnearest⟩ | ⟨hroot, hnone⟩
    · obtain ⟨m, hm, hmp⟩ := hnearest p hnp hceilingp hp
      apply hmp (htargets m hm)
    · obtain ⟨m, hm, hmp⟩ := hnone p hnp hceilingp
      apply hmp (htargets m hm)
  · obtain ⟨y', hy', hyz'⟩ := hspread hceilingp z hzp hz
    apply hyz' (hall y' hy')

/-- The common ancestor stays the same if all nodes are replaced by others below a node `p`
below it, and none of the nearer candidates has all of the new nodes below it. -/
theorem commonAncestor_eq_of_below {n : Nat}
    (hp : chart.isBelow p (chart.commonAncestor n targets) = true)
    (htargets : ∀ x ∈ targets, chart.isBelow x p = true)
    (htargets' : ∀ x ∈ targets', chart.isBelow x p = true)
    (hnear : ∀ z, chart.Within n z → (∃ y ∈ targets, ¬ chart.isBelow y z = true) →
      ∃ y ∈ targets', ¬ chart.isBelow y z = true) :
  chart.commonAncestor n targets' = chart.commonAncestor n targets
  := by
  rcases wf.commonAncestor_spec n targets with
    ⟨hsource, hceiling, -, hnearest⟩ | ⟨hroot, hnone⟩
  · have hcandidate : ∀ y ∈ targets',
        chart.isBelow y (chart.commonAncestor n targets) = true :=
      fun y hy => wf.isBelow_trans (htargets' y hy) hp
    rcases wf.commonAncestor_spec n targets' with
      ⟨hsource', hceiling', hall', hnearest'⟩ | ⟨-, hnone'⟩
    · rcases wf.within_total (Or.inr hsource') (Or.inr hsource) with (heq | hlow) | hlow
      · exact heq
      · obtain ⟨m, hm, hmd⟩ := hnearest _ hsource' hceiling' hlow
        obtain ⟨y, hy, hyd⟩ := hnear _ (Or.inr hsource') ⟨m, hm, hmd⟩
        exact absurd (hall' y hy) hyd
      · obtain ⟨m, hm, hmd⟩ := hnearest' _ hsource hceiling hlow
        exact absurd (hcandidate m hm) hmd
    · obtain ⟨m, hm, hmd⟩ := hnone' _ hsource hceiling
      exact absurd (hcandidate m hm) hmd
  · -- no node above `n` has the targets below it, so `n` is the root
    rw [hroot] at hp
    have hno : ∀ b, ¬ chart.isBelow n b = true := by
      intro b hb
      have hlt := lt_length_of_isBelow hb
      have hne : n ≠ root := by
        rintro rfl
        apply wf.not_isBelow_of_root b hb
      obtain ⟨m, hm, hmr⟩ := hnone root (wf.isBelow_root hlt hne) (Or.inl rfl)
      apply hmr (wf.isBelow_trans (htargets m hm) hp)
    rw [hroot]
    rcases wf.commonAncestor_spec n targets' with ⟨hsource', -⟩ | ⟨hroot', -⟩
    · exact absurd hsource' (hno _)
    · exact hroot'

/-- The domain stays the same if the targets are replaced by others below a node `p` that
lies below the domain, unless `p` is no ceiling and the new targets lie together below a
node that is nearer to the source. -/
theorem domain_eq_of_below (hp : chart.isBelow p (chart.domain t targets) = true)
    (htargets : ∀ x ∈ targets, chart.isBelow x p = true)
    (htargets' : ∀ x ∈ targets', chart.isBelow x p = true) (hne' : targets' ≠ [])
    (hspread : ¬ chart.IsCeiling p → ∀ z, chart.isBelow z p = true →
      chart.Within t.source z → ∃ y ∈ targets', ¬ chart.isBelow y z = true) :
  chart.domain t targets' = chart.domain t targets
  := by
  rcases domain_cases chart t targets with ⟨hdomain, hi, hk, -⟩ | ⟨hdomain, hnot⟩
  · -- an internal transition stays inside its source
    rw [hdomain] at hp ⊢
    rcases domain_cases chart t targets' with ⟨hdomain', -⟩ | ⟨-, hnot'⟩
    · exact hdomain'
    · exact absurd ⟨hi, hk, fun y hy => wf.isBelow_trans (htargets' y hy) hp⟩ hnot'
  rw [hdomain] at hp
  have hnear : ∀ z, chart.Within t.source z → (∃ y ∈ targets, ¬ chart.isBelow y z = true) →
      ∃ y ∈ targets', ¬ chart.isBelow y z = true :=
    fun z => wf.exists_target_outside hp htargets htargets' hne' hspread
  rcases domain_cases chart t targets' with ⟨-, hi, hk, hall⟩ | ⟨hdomain', -⟩
  · -- the transition cannot become internal
    exfalso
    have hout : ∃ y ∈ targets, ¬ chart.isBelow y t.source = true := by
      by_contra hin
      simp only [not_exists, not_and, not_not] at hin
      apply hnot ⟨hi, hk, hin⟩
    obtain ⟨y, hy, hyz⟩ := hnear t.source (within_refl chart _) hout
    apply hyz (hall y hy)
  · rw [hdomain, hdomain']
    apply wf.commonAncestor_eq_of_below hp htargets htargets' hnear

/-! ### Scopes -/

/-- The active leaves below an exited parallel node do not lie together below a node of it
that has an active node below it, if the node has several regions. -/
theorem exists_recording_outside (legal : chart.Legal configuration) (hp : p ∈ configuration)
    (hk : (chart.kind p).isParallel = true) (hn : n ∈ configuration) {z : Nat}
    (hz : chart.isBelow z p = true) (hnz : chart.Within n z)
    (hdeep : depth = .deep → chart.RegionsBelow p ∧ (chart.regions p).length ≠ 1) :
  ∃ y ∈ recording chart configuration p depth, ¬ chart.isBelow y z = true
  := by
  obtain ⟨r, hr, hactive, hnr⟩ := wf.exists_region legal hn (wf.within_isBelow hnz hz)
  have hrp := parent_of_mem_regions wf hr
  cases depth with
  | shallow =>
    use r, mem_recording_shallow.mpr ⟨hactive, hrp⟩
    intro hrz
    apply wf.not_isBelow_of_within (wf.within_parent hrp hrz) hz
  | deep =>
    obtain ⟨hregions, hlength⟩ := hdeep rfl
    obtain ⟨r', hr', hne⟩ : ∃ r' ∈ chart.regions p, r' ≠ r := by
      by_contra hall
      simp only [not_exists, not_and, not_not] at hall
      have hreplicate := List.eq_replicate_iff.mpr ⟨rfl, hall⟩
      have hnodup := nodup_regions wf p
      rw [hreplicate, List.nodup_replicate] at hnodup
      have hpos := List.length_pos_of_mem hr
      omega
    have hrp' := parent_of_mem_regions wf hr'
    have hbelow' := wf.isBelow_of_parent hrp'
    obtain ⟨y, hy, hatomic, hyr⟩ := wf.exists_leaf legal (legal.regions_mem hp hk hr')
      (fun z hz => hregions z (wf.within_isBelow hz hbelow'))
    use y, mem_recording_deep.mpr ⟨hy, hatomic, wf.within_isBelow hyr hbelow'⟩
    intro hyz
    have hzr := wf.within_child_of_within hnz hz hrp hnr
    apply hne (wf.child_unique hrp' hrp hyr (Or.inr (wf.isBelow_of_within hyz hzr)))

/-- If the parent of a history node is exited, it lies below the scope of the transition that
leads to the history node, unless another transition moves inside a node above or below. -/
theorem isBelow_of_exited (hremembers : chart.Remembers history)
    (hsiblings : chart.SiblingDefaults) (haims : chart.Aims history t a d)
    (hk : (chart.kind a).isHistory = true) (hp : chart.parent? a = some p)
    (hexited : p ∈ chart.exited configuration history ts)
    (hown : ∀ u ∈ ts, ∀ d', chart.scope history u = some d' →
      chart.Within d d' ∨ chart.isBelow d' d = true → d' = d) :
  chart.isBelow p d = true
  := by
  obtain ⟨-, u, hu, d', hd', hpd'⟩ := mem_exited.mp hexited
  obtain ⟨x, hx⟩ := wf.exists_mem_landings haims
  have hxp := wf.isBelow_of_mem_landings hremembers hsiblings hk hp hx
  have hrelated : chart.Within d d' ∨ chart.isBelow d' d = true := by
    by_cases hroot : d = root
    · rw [hroot]
      have hlt := wf.lt_length_of_within (lt_length_of_isBelow hpd') (Or.inr hpd')
      by_cases hd'root : d' = root
      · exact Or.inl (Or.inl hd'root.symm)
      · exact Or.inr (wf.isBelow_root hlt hd'root)
    · apply wf.within_total (Or.inr (wf.isBelow_of_aims haims hx hroot))
        (Or.inr (wf.isBelow_trans hxp hpd'))
  rw [← hown u hu d' hd' hrelated]
  exact hpd'

/-- A transition to a sound history whose parent is exited by it moves inside the same node
before and after the histories are recorded. -/
theorem scope_eq_of_exited (legal : chart.Legal configuration)
    (hremembers : chart.Remembers history) (hsiblings : chart.SiblingDefaults)
    (hsound : chart.SoundHistories) (ht : t ∈ chart.transitions t.source)
    (hsource : t.source ∈ configuration) (ha : a ∈ t.targets)
    (haims : chart.Aims history t a d)
    (haims' : chart.Aims (recorded chart configuration history ts) t a d')
    (hk : chart.kind a = .history depth defaults) (hp : chart.parent? a = some p)
    (hexited : p ∈ chart.exited configuration history ts) (hpd : chart.isBelow p d = true) :
  d' = d
  := by
  have hremembers' := hremembers.recorded wf legal ts
  have hhistory : (chart.kind a).isHistory = true := by rw [hk]; rfl
  obtain ⟨-, rfl⟩ := scope_eq_some.mp haims.scope
  obtain ⟨hne', rfl⟩ := scope_eq_some.mp haims'.scope
  apply wf.domain_eq_of_below hpd _ _ hne'
  · -- if `p` is parallel, the new targets lie in different regions or are regions
    intro hceiling z hz hsz
    have hparallel : (chart.kind p).isParallel = true := by
      rcases wf.inner (wf.mem_children.mpr hp) with h | h
      · exact absurd (Or.inr h) hceiling
      · exact h
    have hdeep : depth = .deep → chart.RegionsBelow p ∧ (chart.regions p).length ≠ 1 := by
      rintro rfl
      obtain ⟨hregions, hlength⟩ := hsound _ t ht a ha p hp (by rw [hk]; rfl)
      exact ⟨hregions, hlength hparallel (wf.within_isBelow hsz hz)⟩
    obtain ⟨y, hy, hyz⟩ := wf.exists_recording_outside legal (mem_exited.mp hexited).1 hparallel
      hsource hz hsz hdeep
    rw [← landings_of_lookup_eq_some hk (Progress.lookup_recorded_of_mem wf hk hp hexited)] at hy
    exact ⟨y, (wf.mem_targets_of_aims haims').mpr hy, hyz⟩
  · intro x hx
    apply wf.isBelow_of_mem_landings hremembers hsiblings hhistory hp
      ((wf.mem_targets_of_aims haims).mp hx)
  · intro x hx
    apply wf.isBelow_of_mem_landings hremembers' hsiblings hhistory hp
      ((wf.mem_targets_of_aims haims').mp hx)

/-- A transition with a sound history moves inside the same node before and after the
histories are recorded, if no other transition moves inside a node above or below. -/
theorem scope_recorded (legal : chart.Legal configuration)
    (hremembers : chart.Remembers history) (hsiblings : chart.SiblingDefaults)
    (hsingle : chart.SingleTargets) (hsound : chart.SoundHistories)
    (ht : t ∈ chart.transitions t.source) (hsource : t.source ∈ configuration)
    (hown : ∀ u ∈ ts, ∀ d d', chart.scope history t = some d → chart.scope history u = some d' →
      chart.Within d d' ∨ chart.isBelow d' d = true → d' = d) :
  chart.scope (recorded chart configuration history ts) t = chart.scope history t
  := by
  have hremembers' := hremembers.recorded wf legal ts
  rcases wf.aim_cases ht (hsingle _ t ht) with haims | ⟨a, haims, halt⟩
  · rw [scope, scope, effectiveTargets_of_aims_nil haims, effectiveTargets_of_aims_nil haims]
  have hapart := wf.apart_landings hremembers hsiblings halt
  have hapart' := wf.apart_landings hremembers' hsiblings halt
  have hsame : chart.landings (recorded chart configuration history ts) a =
      chart.landings history a →
      chart.scope (recorded chart configuration history ts) t = chart.scope history t := by
    intro heq
    rw [scope, scope, wf.effectiveTargets_of_aims haims hapart.not_history,
      wf.effectiveTargets_of_aims haims hapart'.not_history, heq]
  cases hk : chart.kind a with
  | history depth defaults =>
    have hhistory : (chart.kind a).isHistory = true := by rw [hk]; rfl
    obtain ⟨p, hp⟩ := wf.exists_parent_of_isHistory hhistory
    have htarget := mem_targets_of_isHistory (by simp [haims]) hhistory
      (legal.not_history hsource)
    by_cases hexited : p ∈ chart.exited configuration history ts
    · have hdeep : depth = .deep → chart.RegionsBelow p := by
        rintro rfl
        exact (hsound _ t ht a htarget p hp (by rw [hk]; rfl)).1
      have hnil := wf.landings_eq_nil_iff hremembers hsiblings hk hp hdeep
      have hnil' := wf.landings_eq_nil_iff hremembers' hsiblings hk hp hdeep
      by_cases hempty : chart.landings history a = []
      · apply hsame
        rw [hempty, hnil'.mpr (hnil.mp hempty)]
      · obtain ⟨d, hd⟩ := wf.exists_scope_of_landings haims hapart hempty
        obtain ⟨d', hd'⟩ := wf.exists_scope_of_landings haims hapart'
          (fun h => hempty (hnil.mpr (hnil'.mp h)))
        have hpd := wf.isBelow_of_exited hremembers hsiblings hd hhistory hp hexited
          (fun u hu d' => hown u hu d d' hd.scope)
        rw [hd.scope, hd'.scope, wf.scope_eq_of_exited legal hremembers hsiblings hsound ht
          hsource htarget hd hd' hk hp hexited hpd]
    · apply hsame
      apply landings_of_lookup hk (Progress.lookup_recorded_of_not_mem wf hp hexited)
  | _ =>
    apply hsame
    have hplain : (chart.kind a).isHistory = false := by rw [hk]; rfl
    rw [(landings_of_plain hplain).1, (landings_of_plain hplain).1]

end WellFormed

end Chart

end Statechart
