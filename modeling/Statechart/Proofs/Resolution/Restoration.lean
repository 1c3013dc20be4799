import Statechart.Proofs.Resolution.Descent
import Statechart.Proofs.Resolution.Isolation
import Statechart.Proofs.Resolution.Preservation

/-!
# Restored histories

A transition to a history node whose parent is not active enters in the subtree of the parent
what the history node has recorded: the active nodes for a deep one, and the active children
with their defaults for a shallow one (`mem_entering_iff_restored`).  Other transitions of the
same microstep enter nothing there, since what they enter is related to their scopes
(`related_of_mem_addEntered`).
-/

namespace Statechart.Chart

open Progress

/-- Whether each parallel node has a region. -/
def Regioned (chart : Chart) : Prop :=
  ∀ n, (chart.kind n).isParallel = true → chart.regions n ≠ []

instance (chart : Chart) : Decidable chart.Regioned :=
  decidable_of_iff
    (∀ n ∈ List.range chart.nodes.length, (chart.kind n).isParallel = true →
      chart.regions n ≠ []) (by
      constructor
      · intro hall n hk
        apply hall n (List.mem_range.mpr _) hk
        by_contra hn
        rw [kind_of_not_lt hn] at hk
        cases hk
      · intro hall n _
        apply hall n)

/-- Whether a node of the subtree of `p` was active in a configuration, for a deep history of
`p`; for a shallow one, whether it is `p` or a default descendant of a child of `p` that was
active. -/
def Restored (chart : Chart) (configuration : NodeSet) (p : Nat) : HistoryDepth → Nat → Prop
  | .deep, k => k ∈ configuration
  | .shallow, k =>
    k = p ∨ ∃ c ∈ configuration, chart.parent? c = some p ∧ chart.Defaults c k

/-- Whether landings below `p` rebuild a part of the subtree of `p`: climbs from them to `p`
and the completion of the regions that they pass stay in the part and reach all of it. -/
structure Rebuilds (chart : Chart) (p : Nat) (landings : List Nat) (restored : Nat → Prop) :
    Prop where
  below : ∀ {x}, x ∈ landings → chart.isBelow x p = true
  landing : ∀ {x k}, x ∈ landings → chart.Defaults x k → restored k
  passed : ∀ {x a}, x ∈ landings → chart.isBelow x a = true → chart.Within a p → restored a
  completed : ∀ {x a r k}, x ∈ landings → chart.isBelow x a = true → chart.Within a p →
    (chart.kind a).isParallel = true → r ∈ chart.regions a → chart.Within k r →
    restored k ∨ ∃ y ∈ landings, ∃ z, chart.Defaults y z ∧ chart.isBelow z r = true
  reached : ∀ {k}, restored k → chart.Within k p →
    ∃ x ∈ landings, chart.Defaults x k ∨ chart.isBelow x k = true

variable {chart : Chart} {history history' : History} {configuration : NodeSet} {p : Progress}
  {t u : Transition} {ts : List Transition} {s : NodeSet} {a d h k q : Nat}
  {depth : HistoryDepth} {defaults : List Nat}

theorem Regioned.below (h : chart.Regioned) (n : Nat) :
  chart.RegionsBelow n
  := fun z _ => h z

namespace WellFormed

variable (wf : chart.WellFormed)

include wf

/-! ### Rebuilt subtrees -/

/-- The leaves below an active node rebuild what is active in its subtree. -/
theorem rebuilds_deep (legal : chart.Legal configuration) (hregioned : chart.Regioned)
    (hinner : (chart.kind q).isAtomic = false) :
  chart.Rebuilds q (recording chart configuration q .deep) (· ∈ configuration)
  := by
  constructor
  case below => exact fun hx => (mem_recording_deep.mp hx).2.2
  case landing =>
    intro x k hx hxk
    obtain ⟨hactive, hatomic, -⟩ := mem_recording_deep.mp hx
    rw [hxk.eq_of_isAtomic hatomic]
    exact hactive
  case passed =>
    exact fun hx hxa _ => legal.mem_of_within wf (mem_recording_deep.mp hx).1 (Or.inr hxa)
  case completed =>
    intro x a r k hx hxa haq hparallel hr hkr
    have ha := legal.mem_of_within wf (mem_recording_deep.mp hx).1 (Or.inr hxa)
    have hractive := legal.regions_mem ha hparallel hr
    obtain ⟨y, hy, hatomic, hyr⟩ := wf.exists_leaf legal hractive (fun z _ => hregioned z)
    have hra := wf.isBelow_of_parent (parent_of_mem_regions wf hr)
    have hyq := wf.isBelow_of_within (wf.within_isBelow hyr hra) haq
    rcases hyr with rfl | hyr
    · left
      rw [hkr.resolve_right (wf.not_isBelow_of_isAtomic hatomic k)]
      exact hractive
    · exact Or.inr ⟨y, mem_recording_deep.mpr ⟨hy, hatomic, hyq⟩, y, .self, hyr⟩
  case reached =>
    intro k hk hkq
    obtain ⟨y, hy, hatomic, hyk⟩ := wf.exists_leaf legal hk (fun z _ => hregioned z)
    have hyq : chart.isBelow y q = true := by
      rcases wf.within_trans hyk hkq with rfl | hyq
      · rw [hinner] at hatomic
        cases hatomic
      · exact hyq
    use y, mem_recording_deep.mpr ⟨hy, hatomic, hyq⟩
    rcases hyk with rfl | hyk
    · exact Or.inl .self
    · exact Or.inr hyk

/-- The active children of an active node rebuild the node and their defaults. -/
theorem rebuilds_shallow (legal : chart.Legal configuration) (hregioned : chart.Regioned)
    (hq : q ∈ configuration) (hne : recording chart configuration q .shallow ≠ []) :
  chart.Rebuilds q (recording chart configuration q .shallow)
    (chart.Restored configuration q .shallow)
  := by
  have hparent : ∀ {x}, x ∈ recording chart configuration q .shallow →
      chart.parent? x = some q := fun hx => (mem_recording_shallow.mp hx).2
  have htop : ∀ {x a}, x ∈ recording chart configuration q .shallow →
      chart.isBelow x a = true → chart.Within a q → a = q := by
    intro x a hx hxa haq
    have hle := wf.le_of_within (wf.within_parent (hparent hx) hxa)
    have hge := wf.le_of_within haq
    omega
  have hrestored : ∀ {x k}, x ∈ recording chart configuration q .shallow →
      chart.Defaults x k → chart.Restored configuration q .shallow k :=
    fun hx hxk => Or.inr ⟨_, (mem_recording_shallow.mp hx).1, hparent hx, hxk⟩
  constructor
  case below => exact fun hx => wf.isBelow_of_parent (hparent hx)
  case landing => exact hrestored
  case passed => exact fun hx hxa haq => Or.inl (htop hx hxa haq)
  case completed =>
    intro x a r k hx hxa haq hparallel hr hkr
    rw [htop hx hxa haq] at hparallel hr
    have hrecorded := mem_recording_shallow.mpr
      ⟨legal.regions_mem hq hparallel hr, parent_of_mem_regions wf hr⟩
    have hatomic : (chart.kind r).isAtomic = true →
        chart.Restored configuration q .shallow k := by
      intro hatomic
      rw [hkr.resolve_right (wf.not_isBelow_of_isAtomic hatomic k)]
      apply hrestored hrecorded .self
    -- a region that is not atomic has a default child
    cases hk : chart.kind r with
    | atomic => exact Or.inl (hatomic (by rw [hk]; rfl))
    | final data => exact Or.inl (hatomic (by rw [hk]; rfl))
    | compound i =>
      have hi := wf.isBelow_of_parent (wf.parent_of_mem_children (wf.initial hk).1)
      exact Or.inr ⟨r, hrecorded, i, .initial .self hk, hi⟩
    | parallel =>
      have hparallel : (chart.kind r).isParallel = true := by rw [hk]; rfl
      obtain ⟨z, hz⟩ := List.exists_mem_of_ne_nil _ (hregioned r hparallel)
      have hzr := wf.isBelow_of_parent (parent_of_mem_regions wf hz)
      exact Or.inr ⟨r, hrecorded, z, .region .self hparallel hz, hzr⟩
    | history depth defaults =>
      have hplain := (mem_regions.mp hr).2
      rw [hk] at hplain
      cases hplain
  case reached =>
    rintro k (rfl | ⟨c, hc, hcq, hck⟩) hkq
    · obtain ⟨x, hx⟩ := List.exists_mem_of_ne_nil _ hne
      exact ⟨x, hx, Or.inr (wf.isBelow_of_parent (hparent hx))⟩
    · exact ⟨c, mem_recording_shallow.mpr ⟨hc, hcq⟩, Or.inl hck⟩

/-- What was recorded for a history node rebuilds what it restores. -/
theorem rebuilds_recording (legal : chart.Legal configuration) (hregioned : chart.Regioned)
    (hq : q ∈ configuration) (hinner : (chart.kind q).isAtomic = false)
    (hne : recording chart configuration q depth ≠ []) :
  chart.Rebuilds q (recording chart configuration q depth)
    (chart.Restored configuration q depth)
  := by
  cases depth with
  | deep => apply wf.rebuilds_deep legal hregioned hinner
  | shallow => apply wf.rebuilds_shallow legal hregioned hq hne

/-- A transition whose landings rebuild a part of the subtree of a node below its scope adds
this part in the subtree, if nothing of the subtree is there. -/
theorem mem_addEntered_iff_of_rebuilds {restored : Nat → Prop}
    (haims : chart.Aims history t a d) (hqd : chart.isBelow q d = true)
    (hrebuilds : chart.Rebuilds q (chart.landings history a) restored)
    (hclear : ∀ k ∈ s, ¬ chart.Within k q) (hkq : chart.Within k q) :
  k ∈ addEntered chart history s t ↔ restored k
  := by
  have hclear' : ∀ x ∈ chart.landings history a, chart.Clear s x :=
    fun x hx k hks hkx => hclear k hks (Or.inr (wf.isBelow_trans hkx (hrebuilds.below hx)))
  constructor
  · intro hk
    rcases wf.mem_addEntered_cases haims hk with hland | ⟨e, x, b, he, hb, hkb⟩
    · rcases defaults_of_mem_land hland with hks | ⟨x, hx, hxk⟩
      · exact absurd hkq (hclear k hks)
      · apply hrebuilds.landing hx hxk
    · have hx := ((wf.mem_climbs_of_aims haims).mp he).1
      rcases hkb with rfl | ⟨hparallel, r, hr, hempty, hkr⟩
      · apply hrebuilds.passed hx hb.1 hkq
      have hrb := parent_of_mem_regions wf hr
      by_cases hbq : chart.Within b q
      · rcases hrebuilds.completed hx hb.1 hbq hparallel hr hkr with hk | ⟨y, hy, z, hyz, hzr⟩
        · exact hk
        · exact absurd hzr (hempty z (wf.mem_land_of_defaults haims.apart hclear' hy hyz))
      · -- the region that leads to `q` holds the landings
        exfalso
        have hqb := (wf.within_total (wf.within_trans hkr (Or.inr (wf.isBelow_of_parent hrb)))
          hkq).resolve_left hbq
        have hqr := wf.within_child_of_within hkq hqb hrb hkr
        apply hempty x ((wf.extends_land haims.apart.lt_length haims.apart.not_history).2 x hx)
        apply wf.isBelow_of_within (hrebuilds.below hx) hqr
  · intro hk
    rw [wf.addEntered_eq haims.aims haims.apart.not_history,
      if_neg (scope_eq_some.mp haims.scope).1]
    obtain ⟨hmono, hpasses, -⟩ := wf.climb_spec (chart.climbs history t a)
      (chart.land (chart.landings history a) s)
    obtain ⟨x, hx, hxk | hxk⟩ := hrebuilds.reached hk hkq
    · apply hmono k (wf.mem_land_of_defaults haims.apart hclear' hx hxk)
    · apply hpasses d x k ((wf.mem_climbs_of_aims haims).mpr ⟨hx, Or.inl rfl⟩)
      exact ⟨hxk, fun _ => wf.within_isBelow hkq hqd⟩

/-! ### Other transitions -/

/-- What the aim of a transition stands for decides inside which node it moves. -/
theorem aims_of_landings (haims : chart.Aims history t a d)
    (heq : chart.landings history' a = chart.landings history a) :
  chart.Aims history' t a d
  := by
  have hapart := haims.apart
  rw [← heq] at hapart
  constructor
  case aims => exact haims.aims
  case apart => exact hapart
  case scope =>
    rw [← haims.scope, scope, scope, wf.effectiveTargets_of_aims haims.aims hapart.not_history,
      wf.effectiveTargets_of_aims haims.aims haims.apart.not_history, heq]

/-- An aim stands for some node, if each parallel node has a region. -/
theorem landings_ne_nil (hremembers : chart.Remembers history)
    (hsiblings : chart.SiblingDefaults) (hregioned : chart.Regioned) (n : Nat) :
  chart.landings history n ≠ []
  := by
  cases hk : chart.kind n with
  | history depth defaults =>
    obtain ⟨q, hq⟩ := wf.exists_parent_of_isHistory (n := n) (by rw [hk]; rfl)
    intro hnil
    have hregions := (wf.landings_eq_nil_iff hremembers hsiblings hk hq
      (fun _ => hregioned.below q)).mp hnil
    cases hkq : chart.kind q with
    | parallel => apply hregioned q (by rw [hkq]; rfl) hregions
    | compound i =>
      have hi := mem_regions.mpr (wf.initial hkq)
      rw [hregions] at hi
      cases hi
    | _ =>
      have hinner := wf.inner (wf.mem_children.mpr hq)
      rw [hkq] at hinner
      rcases hinner with h | h <;> cases h
  | _ =>
    rw [(landings_of_plain (by rw [hk]; rfl)).1]
    apply List.cons_ne_nil

/-- If the targets of a transition are replaced by others below its scope, its domain lies
within the scope. -/
theorem domain_within_scope {targets : List Nat} (ht : t.source < chart.nodes.length)
    (hd : chart.scope history t = some d) (htargets : ∀ x ∈ targets, chart.isBelow x d = true) :
  chart.Within (chart.domain t targets) d
  := by
  by_cases hroot : d = root
  · rw [hroot]
    apply wf.within_root (wf.lt_length_of_within ht (wf.within_domain ht targets))
  have hk := (wf.isCeiling_scope hd).resolve_left hroot
  rcases wf.within_scope ht hd with hsource | hsource
  · -- the transition is internal, since the common ancestor lies above the source
    rw [← (scope_eq_some.mp hd).2] at hsource hroot
    rcases domain_cases chart t (chart.effectiveTargets history t) with
      ⟨hdomain, hi, hk, -⟩ | ⟨hdomain, -⟩
    · rcases domain_cases chart t targets with ⟨hdomain', -⟩ | ⟨-, hnot⟩
      · rw [hdomain', hsource, (scope_eq_some.mp hd).2]
        apply within_refl chart d
      · rw [← (scope_eq_some.mp hd).2, ← hsource] at htargets
        exact absurd ⟨hi, hk, htargets⟩ hnot
    · exfalso
      rw [hdomain] at hsource hroot
      rcases wf.commonAncestor_spec t.source (chart.effectiveTargets history t) with
        ⟨hbelow, -⟩ | ⟨heq, -⟩
      · rw [← hsource] at hbelow
        apply wf.not_isBelow_self t.source hbelow
      · exact hroot heq
  · apply wf.domain_within hk hsource htargets

/-- If the parent of the history node at which a transition aims is exited, the transition
enters nodes below its scope alone. -/
theorem isBelow_of_exited_parent (hremembers' : chart.Remembers history')
    (hsiblings : chart.SiblingDefaults) (ht : t.source < chart.nodes.length)
    (hd : chart.scope history t = some d) {d' : Nat} (haims' : chart.Aims history' t a d')
    (hk : (chart.kind a).isHistory = true) (hq : chart.parent? a = some q)
    (hqd : chart.isBelow q d = true) (hks : k ∈ addEntered chart history' s t) :
  k ∈ s ∨ chart.isBelow k d = true
  := by
  have hbelow : ∀ x ∈ chart.landings history' a, chart.isBelow x q = true :=
    fun x hx => wf.isBelow_of_mem_landings hremembers' hsiblings hk hq hx
  have hdomain : chart.Within d' d := by
    rw [← (scope_eq_some.mp haims'.scope).2]
    apply wf.domain_within_scope ht hd
    intro x hx
    apply wf.isBelow_trans (hbelow x ((wf.mem_targets_of_aims haims').mp hx)) hqd
  -- all climbs end within the scope
  have hpassed : ∀ e x b, (e, x) ∈ chart.climbs history' t a → chart.Passes e x b →
      chart.isBelow b d = true := by
    intro e x b he hb
    obtain ⟨hx, hend⟩ := (wf.mem_climbs_of_aims haims').mp he
    have hxq := hbelow x hx
    rcases hend with rfl | ⟨-, hp⟩
    · have hxe : chart.isBelow x e = true := by
        by_cases hroot : e = root
        · rw [hroot]
          apply wf.isBelow_root (lt_length_of_isBelow hxq)
          rintro rfl
          apply wf.not_isBelow_of_root q hxq
        · apply wf.isBelow_of_aims haims' hx hroot
      apply wf.isBelow_of_within (hb.2 hxe) hdomain
    · rw [hq, Option.some.injEq] at hp
      subst hp
      apply wf.isBelow_trans (hb.2 hxq) hqd
  rcases wf.mem_addEntered_cases haims' hks with hland | ⟨e, x, b, he, hb, hkb⟩
  · rcases wf.mem_land_cases hland with hks | ⟨x, hx, hkx⟩
    · exact Or.inl hks
    · exact Or.inr (wf.within_isBelow hkx (wf.isBelow_trans (hbelow x hx) hqd))
  · right
    have hbd := hpassed e x b he hb
    rcases hkb with rfl | ⟨-, r, hr, -, hkr⟩
    · exact hbd
    · have hrb := wf.isBelow_of_parent (parent_of_mem_regions wf hr)
      apply wf.isBelow_trans (wf.within_isBelow hkr hrb) hbd

/-- What a transition enters is related to its scope. -/
theorem related_of_mem_addEntered (legal : chart.Legal p.configuration)
    (hremembers : chart.Remembers p.history) (hsiblings : chart.SiblingDefaults)
    (hsingle : chart.SingleTargets) (hregioned : chart.Regioned)
    (hapart : chart.ScopesApart p.history ts) (ht : t ∈ ts)
    (hmem : t ∈ chart.transitions t.source) (hsource : t.source ∈ p.configuration)
    (hk : k ∈ addEntered chart (recorded chart p.configuration p.history ts) s t) :
  k ∈ s ∨ ∃ d, chart.scope p.history t = some d ∧ (chart.Within k d ∨ chart.Within d k)
  := by
  have hremembers' := hremembers.recorded wf legal ts
  rcases wf.aim_cases hmem (hsingle _ t hmem) with haims | ⟨a, haims, halt⟩
  · left
    rw [addEntered, effectiveTargets_of_aims_nil haims] at hk
    exact hk
  obtain ⟨d, hd⟩ := wf.exists_scope_of_landings haims
    (wf.apart_landings hremembers hsiblings halt)
    (wf.landings_ne_nil hremembers hsiblings hregioned a)
  have hsame : chart.landings (recorded chart p.configuration p.history ts) a =
      chart.landings p.history a →
      k ∈ s ∨ ∃ d, chart.scope p.history t = some d ∧ (chart.Within k d ∨ chart.Within d k) := by
    intro heq
    rcases wf.related_of_aims hremembers' hsiblings (fun q _ _ => hregioned.below q)
      (wf.aims_of_landings hd heq) hk with hks | hrelated
    · exact Or.inl hks
    · exact Or.inr ⟨d, hd.scope, hrelated⟩
  cases hkind : chart.kind a with
  | history depth defaults =>
    have hhistory : (chart.kind a).isHistory = true := by rw [hkind]; rfl
    obtain ⟨q, hq⟩ := wf.exists_parent_of_isHistory hhistory
    by_cases hexited : q ∈ chart.exited p.configuration p.history ts
    · have hqd := wf.isBelow_of_exited hremembers hsiblings hd hhistory hq hexited
        (fun u hu d' hd' hrelated => eq_of_related hapart ht hu hd.scope hd'
          (hrelated.imp_right Or.inr))
      obtain ⟨d', hd'⟩ := wf.exists_scope_of_landings haims
        (wf.apart_landings hremembers' hsiblings halt)
        (wf.landings_ne_nil hremembers' hsiblings hregioned a)
      rcases wf.isBelow_of_exited_parent hremembers' hsiblings (legal.lt_length hsource) hd.scope
        hd' hhistory hq hqd hk with hks | hkd
      · exact Or.inl hks
      · exact Or.inr ⟨d, hd.scope, Or.inl (Or.inr hkd)⟩
    · apply hsame (landings_of_lookup hkind (lookup_recorded_of_not_mem wf hq hexited))
  | _ =>
    have hplain : (chart.kind a).isHistory = false := by rw [hkind]; rfl
    apply hsame
    rw [(landings_of_plain hplain).1, (landings_of_plain hplain).1]

/-! ### Restoring microsteps -/

/-- A transition to a history node whose parent is not active moves inside a node above the
parent. -/
theorem isBelow_scope_of_inactive (legal : chart.Legal p.configuration)
    (hsource : t.source ∈ p.configuration) (haims : chart.Aims p.history t h d)
    (hbelow : ∀ x ∈ chart.landings p.history h, chart.isBelow x q = true)
    (hinactive : q ∉ p.configuration) :
  chart.isBelow q d = true
  := by
  have hactive := legal.mem_of_within wf hsource
    (wf.within_scope (legal.lt_length hsource) haims.scope)
  obtain ⟨x, hx⟩ := wf.exists_mem_landings haims
  rcases wf.within_total (Or.inr (hbelow x hx)) (wf.within_of_aims haims hx) with
    (rfl | hqd) | hdq
  · exact absurd hactive hinactive
  · exact hqd
  · exact absurd (legal.mem_of_within wf hactive (Or.inr hdq)) hinactive

/-- What a transition enters does not lie in the subtree of an inactive node below the scope
of another transition. -/
theorem not_within_of_other (legal : chart.Legal p.configuration)
    (hremembers : chart.Remembers p.history) (hsiblings : chart.SiblingDefaults)
    (hsingle : chart.SingleTargets) (hregioned : chart.Regioned)
    (hapart : chart.ScopesApart p.history ts) (ht : t ∈ ts) (hu : u ∈ ts) (hne : u ≠ t)
    (hmem : u ∈ chart.transitions u.source) (hsource : u.source ∈ p.configuration)
    (hd : chart.scope p.history t = some d) (hqd : chart.isBelow q d = true)
    (hinactive : q ∉ p.configuration)
    (hk : k ∈ addEntered chart (recorded chart p.configuration p.history ts) s u)
    (hkq : chart.Within k q) :
  k ∈ s
  := by
  rcases wf.related_of_mem_addEntered legal hremembers hsiblings hsingle hregioned hapart hu hmem
    hsource hk with hks | ⟨e, he, hke | hek⟩
  · exact hks
  · exfalso
    obtain ⟨hno, hno'⟩ := ((hapart t ht u hu).resolve_left (Ne.symm hne)) d e hd he
    rcases wf.within_total hke (Or.inr (wf.within_isBelow hkq hqd)) with h | h
    · exact hno' h
    · exact hno (Or.inr h)
  · exfalso
    have hactive := legal.mem_of_within wf hsource
      (wf.within_scope (legal.lt_length hsource) he)
    apply hinactive (legal.mem_of_within wf hactive (wf.within_trans hek hkq))

omit wf in
/-- If one transition, taken once, builds a part of a subtree and the others leave the subtree
alone, the microstep enters the part in the subtree. -/
theorem mem_entering_iff_of_one {restored : Nat → Prop} (ht : t ∈ ts)
    (honce : ∀ done rest, done ++ t :: rest = ts → t ∉ done)
    (hother : ∀ u ∈ ts, u ≠ t → ∀ s k, chart.Within k q →
      k ∈ addEntered chart (recorded chart p.configuration p.history ts) s u → k ∈ s)
    (hown : ∀ s, (∀ k ∈ s, ¬ chart.Within k q) → ∀ k, chart.Within k q →
      (k ∈ addEntered chart (recorded chart p.configuration p.history ts) s t ↔ restored k))
    (hkq : chart.Within k q) :
  k ∈ p.entering chart ts ↔ restored k
  := by
  have hentered : (t ∉ ts → ∀ k ∈ p.entering chart ts, ¬ chart.Within k q) ∧
      (t ∈ ts → ∀ k, chart.Within k q → (k ∈ p.entering chart ts ↔ restored k)) := by
    apply entered_induction (P := fun done s => (t ∉ done → ∀ k ∈ s, ¬ chart.Within k q) ∧
      (t ∈ done → ∀ k, chart.Within k q → (k ∈ s ↔ restored k)))
    · exact ⟨fun _ k hk => absurd hk List.not_mem_nil, fun ht => absurd ht List.not_mem_nil⟩
    · rintro done u rest s heq ⟨hbefore, hafter⟩
      by_cases hut : u = t
      · subst hut
        have hlast := List.mem_append_right done (List.mem_singleton_self u)
        exact ⟨fun hnot => absurd hlast hnot, fun _ => hown s (hbefore (honce done rest heq))⟩
      · have hiff : ∀ k, chart.Within k q →
            (k ∈ addEntered chart (recorded chart p.configuration p.history ts) s u ↔ k ∈ s) :=
          fun k hkq => ⟨hother u (by simp [← heq]) hut s k hkq, subset_addEntered⟩
        have hdone : t ∈ done ++ [u] ↔ t ∈ done := by simp [Ne.symm hut]
        rw [hdone]
        constructor
        · intro hnot k hk hkq
          apply hbefore hnot k ((hiff k hkq).mp hk) hkq
        · intro hmem k hkq
          rw [hiff k hkq, hafter hmem k hkq]
  apply hentered.2 ht k hkq

/-- A microstep with a transition to a history node whose parent `q` is not active enters in
the subtree of `q` what the history node has recorded. -/
theorem mem_entering_iff_restored (hroot : (chart.kind root).isCompound = true)
    (legal : chart.Legal p.configuration) (hremembers : chart.Remembers p.history)
    (hsiblings : chart.SiblingDefaults) (hsingle : chart.SingleTargets)
    (hregioned : chart.Regioned)
    (hts : ∀ t ∈ ts, t ∈ chart.transitions t.source ∧ t.source ∈ p.configuration)
    (hdisjoint : ts.Pairwise (fun t u => List.Disjoint
      (chart.exited p.configuration p.history [t])
      (chart.exited p.configuration p.history [u])))
    (ht : t ∈ ts) (haims : t.aims = [h]) (hk : chart.kind h = .history depth defaults)
    (hq : chart.parent? h = some q) (hinactive : q ∉ p.configuration)
    (legal' : chart.Legal configuration) (hactive : q ∈ configuration)
    (hlookup : p.history.lookup h = some (recording chart configuration q depth))
    (hkq : chart.Within k q) :
  k ∈ p.entering chart ts ↔ chart.Restored configuration q depth k
  := by
  have hsources := fun t ht => (hts t ht).2
  have hapart := wf.scopesApart_of_disjoint hroot legal hsources hdisjoint
  have hlandings : chart.landings p.history h = recording chart configuration q depth :=
    landings_of_lookup_eq_some hk hlookup
  have hne := wf.landings_ne_nil hremembers hsiblings hregioned h
  obtain ⟨d, hd⟩ := wf.exists_scope_of_landings haims
    (wf.apart_landings hremembers hsiblings (lt_of_parent hq)) hne
  have hinner : (chart.kind q).isAtomic = false := by
    rcases wf.inner (wf.mem_children.mpr hq) with hinner | hinner
    · exact (Kind.plain_of_isCompound hinner).1
    · exact (Kind.plain_of_isParallel hinner).1
  rw [hlandings] at hne
  have hrebuilds := wf.rebuilds_recording legal' hregioned hactive hinner hne
  rw [← hlandings] at hrebuilds
  have hqd := wf.isBelow_scope_of_inactive legal (hsources t ht) hd
    (fun x hx => hrebuilds.below hx) hinactive
  -- what the history node stands for stays the same, as its parent is not exited
  have hsame : chart.landings (recorded chart p.configuration p.history ts) h =
      chart.landings p.history h :=
    landings_of_lookup hk (lookup_recorded_of_not_mem wf hq
      (fun hexited => hinactive (mem_exited.mp hexited).1))
  rw [← hsame] at hrebuilds
  apply mem_entering_iff_of_one ht _ _ _ hkq
  · intro done rest heq hdone
    apply (wf.unrelated_of_split hroot legal hsources hdisjoint heq hdone hd.scope hd.scope).1
      (within_refl chart d)
  · intro u hu hne s k hkq hk
    apply wf.not_within_of_other legal hremembers hsiblings hsingle hregioned hapart ht hu hne
      (hts u hu).1 (hts u hu).2 hd.scope hqd hinactive hk hkq
  · intro s hclear k hkq
    apply wf.mem_addEntered_iff_of_rebuilds (wf.aims_of_landings hd hsame) hqd hrebuilds hclear hkq

end WellFormed

end Statechart.Chart
