import Statechart.Proofs.Resolution.History

/-!
# Legality of microsteps

A microstep under transitions whose scopes lie apart leads from a legal configuration to a
legal one if and only if the entered nodes fit together with those that stay
(`legal_microstep_iff_fits`).  For one transition this means that it enters a child of its
scope and enters no inactive node outside of it (`fits_iff_confined`).
-/

namespace Statechart.Chart

open Progress

/-- Whether a node is active and no transition exits it. -/
def Remains (chart : Chart) (p : Progress) (ts : List Transition) (n : Nat) : Prop :=
  n ∈ p.configuration ∧ n ∉ p.exiting chart ts

/-- Whether the entered nodes fit together with those that remain: they hang on these or on
each other, two of them are not children of one compound node, they were active before or lie
below a scope, and they reach below each scope. -/
structure Fits (chart : Chart) (p : Progress) (ts : List Transition) : Prop where
  parent : ∀ {n q}, n ∈ p.entering chart ts → chart.parent? n = some q →
    q ∈ p.entering chart ts ∨ chart.Remains p ts q
  unique : ∀ {k c c'}, (chart.kind k).isCompound = true → chart.parent? c = some k →
    chart.parent? c' = some k → c ∈ p.entering chart ts → c' ∈ p.entering chart ts → c = c'
  located : ∀ {n}, n ∈ p.entering chart ts → n ∈ p.configuration ∨
    ∃ t ∈ ts, ∃ d, chart.scope p.history t = some d ∧ chart.isBelow n d = true
  reached : ∀ {t d}, t ∈ ts → chart.scope p.history t = some d →
    ∃ n ∈ p.entering chart ts, chart.isBelow n d = true

/-- Whether the scopes of different transitions are not related. -/
def ScopesApart (chart : Chart) (history : History) (ts : List Transition) : Prop :=
  ∀ t ∈ ts, ∀ u ∈ ts, t = u ∨ ∀ d d', chart.scope history t = some d →
    chart.scope history u = some d' → ¬ chart.Within d d' ∧ ¬ chart.Within d' d

/-- Whether a transition enters a child of its scope and no inactive node outside of it. -/
def Confined (chart : Chart) (p : Progress) (t : Transition) : Prop :=
  ∀ d, chart.scope p.history t = some d →
    (∃ c ∈ p.entering chart [t], chart.parent? c = some d) ∧
    ∀ n ∈ p.entering chart [t], n ∈ p.configuration ∨ chart.isBelow n d = true

variable {chart : Chart} {imps : Implementations} {trigger : Event} {p : Progress}
  {history : History} {ts : List Transition} {t u : Transition} {n d d' : Nat}

/-- An active node stays active if no transition moves inside a node above it. -/
theorem not_mem_exiting
    (h : ∀ t ∈ ts, ∀ d, chart.scope p.history t = some d → ¬ chart.isBelow n d = true) :
  n ∉ p.exiting chart ts
  := by
  intro hexited
  obtain ⟨-, t, ht, d, hd, hnd⟩ := mem_exiting.mp hexited
  apply h t ht d hd hnd

namespace WellFormed

variable (wf : chart.WellFormed) (hroot : (chart.kind root).isCompound = true)

include wf hroot

theorem isCompound_of_scope {history : History} {d : Nat}
    (hd : chart.scope history t = some d) :
  (chart.kind d).isCompound = true
  := by
  rcases wf.isCeiling_scope hd with rfl | hk
  · exact hroot
  · exact hk

omit hroot in
/-- The parent of a node that remains, remains. -/
theorem remains_parent (legal : chart.Legal p.configuration) (hn : chart.Remains p ts n)
    {q : Nat} (hq : chart.parent? n = some q) :
  chart.Remains p ts q
  := by
  obtain ⟨hactive, hstays⟩ := hn
  constructor
  · apply legal.parent_mem hactive hq
  · intro hexited
    obtain ⟨-, t, ht, d, hd, hqd⟩ := mem_exiting.mp hexited
    have hnd := wf.isBelow_of_parent_within hq (Or.inr hqd)
    apply hstays (mem_exiting.mpr ⟨hactive, t, ht, d, hd, hnd⟩)

omit hroot in
/-- A node that remains, with a child that is exited, is the scope of a transition. -/
theorem exists_scope_of_remains (hn : chart.Remains p ts n) {c : Nat}
    (hc : chart.parent? c = some n) (hexited : c ∈ p.exiting chart ts) :
  ∃ t ∈ ts, chart.scope p.history t = some n
  := by
  obtain ⟨-, t, ht, d, hd, hcd⟩ := mem_exiting.mp hexited
  rcases wf.within_parent hc hcd with rfl | hnd
  · use t, ht, hd
  · exact absurd (mem_exiting.mpr ⟨hn.1, t, ht, d, hd, hnd⟩) hn.2

omit hroot in
/-- If the entered nodes fit, what an active node lies within is active. -/
theorem mem_of_within_of_fits (legal : chart.Legal p.configuration) (hfits : chart.Fits p ts)
    {a : Nat} (hn : n ∈ (microstep chart imps ts trigger p).configuration)
    (hna : chart.Within n a) :
  a ∈ (microstep chart imps ts trigger p).configuration
  := by
  induction n using Nat.strongRecOn with
  | _ n ih =>
    rcases hna with rfl | hna
    · exact hn
    · obtain ⟨q, hq, hqa⟩ := wf.isBelow_iff.mp hna
      apply ih q (wf.parent_lt hq) _ hqa
      apply mem_configuration_microstep.mpr
      rcases mem_configuration_microstep.mp hn with hn | hn
      · exact Or.inl (wf.remains_parent legal hn hq)
      · exact (hfits.parent hn hq).symm

omit hroot in
/-- If the entered nodes fit and are supported, an active compound node has an active child. -/
theorem exists_child_of_fits (legal : chart.Legal p.configuration) (hfits : chart.Fits p ts)
    (hsupported : ∀ {k}, k ∈ p.entering chart ts → chart.Supported (p.entering chart ts) k)
    (hn : n ∈ (microstep chart imps ts trigger p).configuration)
    (hk : (chart.kind n).isCompound = true) :
  ∃ c, c ∈ (microstep chart imps ts trigger p).configuration ∧ chart.parent? c = some n
  := by
  -- it lies above an entered node, unless it keeps its child
  have hbelow : ∀ {x}, x ∈ p.entering chart ts → chart.isBelow x n = true →
      ∃ c, c ∈ (microstep chart imps ts trigger p).configuration ∧ chart.parent? c = some n := by
    intro x hx hxn
    obtain ⟨c, hc, hxc⟩ := wf.exists_child hxn
    use c, wf.mem_of_within_of_fits legal hfits
      (mem_configuration_microstep.mpr (Or.inr hx)) hxc
  rcases mem_configuration_microstep.mp hn with hn | hn
  · obtain ⟨c, ⟨hcs, hc⟩, -⟩ := legal.child hn.1 hk
    by_cases hexited : c ∈ p.exiting chart ts
    · obtain ⟨t, ht, hd⟩ := wf.exists_scope_of_remains hn hc hexited
      obtain ⟨x, hx, hxn⟩ := hfits.reached ht hd
      apply hbelow hx hxn
    · use c, mem_configuration_microstep.mpr (Or.inl ⟨hcs, hexited⟩)
  · obtain ⟨x, hx, hxn⟩ := (hsupported hn).child hk
    apply hbelow hx hxn

omit hroot in
/-- If the entered nodes fit, no two children of a compound node are active. -/
theorem child_unique_of_fits (legal : chart.Legal p.configuration) (hfits : chart.Fits p ts)
    (hk : (chart.kind n).isCompound = true) {c c' : Nat}
    (hc : c ∈ (microstep chart imps ts trigger p).configuration)
    (hcn : chart.parent? c = some n)
    (hc' : c' ∈ (microstep chart imps ts trigger p).configuration)
    (hcn' : chart.parent? c' = some n) :
  c = c'
  := by
  -- a child that remains excludes the entered ones, as these are below no scope
  have hmixed : ∀ {c c'}, chart.Remains p ts c → chart.parent? c = some n →
      c' ∈ p.entering chart ts → chart.parent? c' = some n → c = c' := by
    intro c c' hc hcn hc' hcn'
    rcases hfits.located hc' with hactive | ⟨t, ht, d, hd, hcd⟩
    · apply legal.child_unique (legal.parent_mem hc.1 hcn) hk hc.1 hcn hactive hcn'
    · have hbelow := wf.isBelow_of_parent_within hcn (wf.within_parent hcn' hcd)
      exact absurd (mem_exiting.mpr ⟨hc.1, t, ht, d, hd, hbelow⟩) hc.2
  rcases mem_configuration_microstep.mp hc with hc | hc
  · rcases mem_configuration_microstep.mp hc' with hc' | hc'
    · apply legal.child_unique (legal.parent_mem hc.1 hcn) hk hc.1 hcn hc'.1 hcn'
    · apply hmixed hc hcn hc' hcn'
  · rcases mem_configuration_microstep.mp hc' with hc' | hc'
    · exact (hmixed hc' hcn' hc hcn).symm
    · apply hfits.unique hk hcn hcn' hc hc'

/-- If the entered nodes fit and are supported, an active parallel node has active regions. -/
theorem regions_mem_of_fits (legal : chart.Legal p.configuration) (hfits : chart.Fits p ts)
    (hsupported : ∀ {k}, k ∈ p.entering chart ts → chart.Supported (p.entering chart ts) k)
    (hn : n ∈ (microstep chart imps ts trigger p).configuration)
    (hk : (chart.kind n).isParallel = true) {r : Nat} (hr : r ∈ chart.regions n) :
  r ∈ (microstep chart imps ts trigger p).configuration
  := by
  rcases mem_configuration_microstep.mp hn with hn | hn
  · apply mem_configuration_microstep.mpr
    left
    use legal.regions_mem hn.1 hk hr
    intro hexited
    obtain ⟨t, -, hd⟩ := wf.exists_scope_of_remains hn (parent_of_mem_regions wf hr) hexited
    have hcompound := wf.isCompound_of_scope hroot hd
    rw [(Kind.plain_of_isParallel hk).2.1] at hcompound
    cases hcompound
  · obtain ⟨x, hx, hxr⟩ := (hsupported hn).regions hk hr
    apply wf.mem_of_within_of_fits legal hfits (mem_configuration_microstep.mpr (Or.inr hx)) hxr

/-- If the entered nodes are supported and fit together with those that remain, the
configuration stays legal. -/
theorem legal_of_fits (legal : chart.Legal p.configuration)
    (hsupported : ∀ {k}, k ∈ p.entering chart ts → chart.Supported (p.entering chart ts) k)
    (hfits : chart.Fits p ts) :
  chart.Legal (microstep chart imps ts trigger p).configuration
  := by
  constructor
  case increasing => apply configuration_microstep_increasing legal.increasing
  case lt_length =>
    intro n hn
    rcases mem_configuration_microstep.mp hn with hn | hn
    · apply legal.lt_length hn.1
    · apply (hsupported hn).lt_length
  case root_mem =>
    apply mem_configuration_microstep.mpr
    left
    use legal.root_mem
    apply not_mem_exiting (fun t _ d _ => wf.not_isBelow_of_root d)
  case parent_mem =>
    intro n q hn hq
    apply wf.mem_of_within_of_fits legal hfits hn (Or.inr (wf.isBelow_of_parent hq))
  case child =>
    intro n hn hk
    obtain ⟨c, hc, hcn⟩ := wf.exists_child_of_fits legal hfits hsupported hn hk
    use c, ⟨hc, hcn⟩
    rintro c' ⟨hc', hcn'⟩
    apply wf.child_unique_of_fits legal hfits hk hc' hcn' hc hcn
  case regions_mem =>
    intro n r hn hk hr
    apply wf.regions_mem_of_fits hroot legal hfits hsupported hn hk hr
  case not_history =>
    intro n hn
    rcases mem_configuration_microstep.mp hn with hn | hn
    · apply legal.not_history hn.1
    · apply (hsupported hn).not_history

/-- The scopes of transitions that exit no node in common are not related, since each has an
active child. -/
theorem not_within_of_disjoint (legal : chart.Legal p.configuration)
    (ht : t.source ∈ p.configuration)
    (hdisjoint : List.Disjoint (chart.exited p.configuration p.history [t])
      (chart.exited p.configuration p.history [u]))
    (hd : chart.scope p.history t = some d) (hd' : chart.scope p.history u = some d') :
  ¬ chart.Within d d'
  := by
  intro hdd
  have hactive := legal.mem_of_within wf ht (wf.within_scope (legal.lt_length ht) hd)
  obtain ⟨c, ⟨hc, hcd⟩, -⟩ := legal.child hactive (wf.isCompound_of_scope hroot hd)
  have hbelow := wf.isBelow_of_parent hcd
  apply hdisjoint (a := c)
  · apply mem_exited_singleton.mpr ⟨hc, d, hd, hbelow⟩
  · apply mem_exited_singleton.mpr ⟨hc, d', hd', wf.isBelow_of_within hbelow hdd⟩

omit wf hroot in
/-- Of related scopes of transitions that exit no node in common there is one. -/
theorem eq_of_related (hapart : chart.ScopesApart p.history ts)
    (ht : t ∈ ts) (hu : u ∈ ts) (hd : chart.scope p.history t = some d)
    (hd' : chart.scope p.history u = some d')
    (hrelated : chart.Within d d' ∨ chart.Within d' d) :
  d' = d
  := by
  rcases hapart t ht u hu with rfl | hnot
  · rw [hd, Option.some.injEq] at hd'
    apply hd'.symm
  · obtain ⟨hno, hno'⟩ := hnot d d' hd hd'
    rcases hrelated with h | h
    · exact absurd h hno
    · exact absurd h hno'

omit hroot in
/-- What the scope of a transition lies within remains. -/
theorem remains_of_within (legal : chart.Legal p.configuration)
    (hapart : chart.ScopesApart p.history ts)
    (ht : t ∈ ts) (hsource : t.source ∈ p.configuration)
    (hd : chart.scope p.history t = some d) {b : Nat} (hdb : chart.Within d b) :
  chart.Remains p ts b
  := by
  have hactive := legal.mem_of_within wf hsource
    (wf.within_scope (legal.lt_length hsource) hd)
  use legal.mem_of_within wf hactive hdb
  apply not_mem_exiting
  intro u hu d' hd' hbd'
  have hdd' := wf.within_isBelow hdb hbd'
  have heq := eq_of_related hapart ht hu hd hd' (Or.inl (Or.inr hdd'))
  rw [heq] at hdd'
  apply wf.not_isBelow_self d hdd'

/-- The scopes of transitions that exit no node in common lie apart. -/
theorem scopesApart_of_disjoint (legal : chart.Legal p.configuration)
    (hts : ∀ t ∈ ts, t.source ∈ p.configuration)
    (hdisjoint : ts.Pairwise (fun t u => List.Disjoint
      (chart.exited p.configuration p.history [t])
      (chart.exited p.configuration p.history [u]))) :
  chart.ScopesApart p.history ts
  := by
  intro t ht u hu
  by_cases htu : t = u
  · exact Or.inl htu
  right
  intro d d' hd hd'
  constructor
  · apply wf.not_within_of_disjoint hroot legal (hts t ht)
      (disjoint_of_pairwise hdisjoint ht hu htu) hd hd'
  · apply wf.not_within_of_disjoint hroot legal (hts u hu)
      (disjoint_of_pairwise hdisjoint hu ht (Ne.symm htu)) hd' hd

/-- If the configuration stays legal, the entered nodes fit together with those that
remain. -/
theorem fits_of_legal (legal : chart.Legal p.configuration)
    (hapart : chart.ScopesApart p.history ts) (hts : ∀ t ∈ ts, t.source ∈ p.configuration)
    (legal' : chart.Legal (microstep chart imps ts trigger p).configuration) :
  chart.Fits p ts
  := by
  have hentered : ∀ {n}, n ∈ p.entering chart ts →
      n ∈ (microstep chart imps ts trigger p).configuration :=
    fun hn => mem_configuration_microstep.mpr (Or.inr hn)
  -- an active node that was inactive lies below a scope, since its parent has, or the
  -- child of its parent that was active has been exited
  have hlocated : ∀ n, n ∈ (microstep chart imps ts trigger p).configuration →
      n ∈ p.configuration ∨
      ∃ t ∈ ts, ∃ d, chart.scope p.history t = some d ∧ chart.isBelow n d = true := by
    intro n
    induction n using Nat.strongRecOn with
    | _ n ih =>
      intro hn
      by_cases hactive : n ∈ p.configuration
      · exact Or.inl hactive
      right
      have hne : n ≠ root := by
        rintro rfl
        apply hactive legal.root_mem
      obtain ⟨q, hq⟩ := wf.exists_parent (legal'.lt_length hn) hne
      rcases ih q (wf.parent_lt hq) (legal'.parent_mem hn hq) with hqactive | ⟨t, ht, d, hd, hqd⟩
      · rcases wf.inner (wf.mem_children.mpr hq) with hk | hk
        · obtain ⟨c, ⟨hc, hcq⟩, -⟩ := legal.child hqactive hk
          by_cases hexited : c ∈ p.exiting chart ts
          · obtain ⟨-, t, ht, d, hd, hcd⟩ := mem_exiting.mp hexited
            exact ⟨t, ht, d, hd, wf.isBelow_of_parent_within hq (wf.within_parent hcq hcd)⟩
          · have hc' : c ∈ (microstep chart imps ts trigger p).configuration :=
              mem_configuration_microstep.mpr (Or.inl ⟨hc, hexited⟩)
            have heq := legal'.child_unique (legal'.parent_mem hn hq) hk hc' hcq hn hq
            rw [heq] at hc
            exact absurd hc hactive
        · have hr := mem_regions.mpr ⟨wf.mem_children.mpr hq, legal'.not_history hn⟩
          exact absurd (legal.regions_mem hqactive hk hr) hactive
      · exact ⟨t, ht, d, hd, wf.isBelow_of_parent_within hq (Or.inr hqd)⟩
  constructor
  case parent =>
    intro n q hn hq
    exact (mem_configuration_microstep.mp (legal'.parent_mem (hentered hn) hq)).symm
  case unique =>
    intro k c c' hk hc hc' hcs hcs'
    apply legal'.child_unique (legal'.parent_mem (hentered hcs) hc) hk (hentered hcs) hc
      (hentered hcs') hc'
  case located => exact fun hn => hlocated _ (hentered hn)
  case reached =>
    intro t d ht hd
    have hremains := wf.remains_of_within legal hapart ht (hts t ht) hd (within_refl chart d)
    have hd' : d ∈ (microstep chart imps ts trigger p).configuration :=
      mem_configuration_microstep.mpr (Or.inl hremains)
    obtain ⟨c, ⟨hc, hcd⟩, -⟩ := legal'.child hd' (wf.isCompound_of_scope hroot hd)
    have hbelow := wf.isBelow_of_parent hcd
    rcases mem_configuration_microstep.mp hc with ⟨hactive, hstays⟩ | hentered
    · exact absurd (mem_exiting.mpr ⟨hactive, t, ht, d, hd, hbelow⟩) hstays
    · exact ⟨c, hentered, hbelow⟩

omit hroot in
/-- The entered nodes are supported. -/
theorem supported_entering (legal : chart.Legal p.configuration)
    (hremembers : chart.Remembers p.history) (hsiblings : chart.SiblingDefaults)
    (hsingle : chart.SingleTargets)
    (hts : ∀ t ∈ ts, t ∈ chart.transitions t.source) {k : Nat} (hk : k ∈ p.entering chart ts) :
  chart.Supported (p.entering chart ts) k
  := by
  have hremembers' := hremembers.recorded wf legal ts
  have hextends : ∀ {s t}, t ∈ ts → chart.Extends s
      (addEntered chart (recorded chart p.configuration p.history ts) s t) := by
    intro s t hmem
    have ht := hts t hmem
    rcases wf.aim_cases ht (hsingle _ t ht) with haims | ⟨a, haims, halt⟩
    · rw [addEntered, effectiveTargets_of_aims_nil haims]
      apply extends_refl chart s
    · have hlandings := wf.apart_landings hremembers' hsiblings halt
      apply wf.extends_addEntered haims hlandings.lt_length hlandings.not_history
  have hfold : ∀ (s : NodeSet) (us : List Transition), (∀ t ∈ us, t ∈ ts) → chart.Extends s
      (us.foldl (addEntered chart (recorded chart p.configuration p.history ts)) s) := by
    intro s us hus
    induction us generalizing s with
    | nil => apply extends_refl chart s
    | cons t us ih =>
      rw [List.foldl_cons]
      exact (hextends (hus t List.mem_cons_self)).trans
        (ih _ (fun u hu => hus u (List.mem_cons_of_mem t hu)))
  exact ((hfold [] ts (fun t ht => ht)).new hk).resolve_left List.not_mem_nil

/-- A microstep under transitions whose scopes lie apart ends in a legal configuration
exactly if the entered nodes fit together with those that remain. -/
theorem legal_microstep_iff_fits (legal : chart.Legal p.configuration)
    (hremembers : chart.Remembers p.history) (hsiblings : chart.SiblingDefaults)
    (hsingle : chart.SingleTargets) (hapart : chart.ScopesApart p.history ts)
    (hts : ∀ t ∈ ts, t ∈ chart.transitions t.source ∧ t.source ∈ p.configuration) :
  chart.Legal (microstep chart imps ts trigger p).configuration ↔ chart.Fits p ts
  := by
  constructor
  · apply wf.fits_of_legal hroot legal hapart (fun t ht => (hts t ht).2)
  · apply wf.legal_of_fits hroot legal
      (fun hk => wf.supported_entering legal hremembers hsiblings hsingle
        (fun t ht => (hts t ht).1) hk)

/-! ### Single transitions -/

omit hroot in
/-- What a transition enters below its scope leads up to a child of the scope. -/
theorem exists_entered_child (hfits : chart.Fits p ts) (ht : t ∈ ts)
    (hd : chart.scope p.history t = some d) :
  ∃ c ∈ p.entering chart ts, chart.parent? c = some d
  := by
  obtain ⟨n, hn, hnd⟩ := hfits.reached ht hd
  induction n using Nat.strongRecOn with
  | _ n ih =>
    obtain ⟨q, hq, hqd⟩ := wf.isBelow_iff.mp hnd
    rcases hqd with rfl | hqd
    · exact ⟨n, hn, hq⟩
    · rcases hfits.parent hn hq with hqs | ⟨hactive, hstays⟩
      · apply ih q (wf.parent_lt hq) hqs hqd
      · exact absurd (mem_exiting.mpr ⟨hactive, t, ht, d, hd, hqd⟩) hstays

omit hroot in
theorem confined_of_fits (hfits : chart.Fits p [t]) :
  Confined chart p t
  := by
  intro d hd
  use wf.exists_entered_child hfits (List.mem_singleton_self t) hd
  intro n hn
  rcases hfits.located hn with hactive | ⟨u, hu, d', hd', hnd⟩
  · exact Or.inl hactive
  · rw [List.mem_singleton.mp hu, hd, Option.some.injEq] at hd'
    rw [hd']
    exact Or.inr hnd

omit wf hroot in
/-- A transition without a scope enters nothing. -/
theorem entering_of_scope_eq_none (hnone : chart.scope p.history t = none) :
  p.entering chart [t] = []
  := by
  have hexited : chart.exited p.configuration p.history [t] = [] := by
    apply List.eq_nil_iff_forall_not_mem.mpr
    intro n hn
    obtain ⟨-, d, hd, -⟩ := mem_exited_singleton.mp hn
    rw [hnone] at hd
    cases hd
  have hrecorded : recorded chart p.configuration p.history [t] = p.history := by
    rw [recorded, hexited]
    rfl
  have hnil : chart.effectiveTargets p.history t = [] := scope_eq_none.mp hnone
  change addEntered chart (recorded chart p.configuration p.history [t]) [] t = []
  rw [hrecorded, addEntered, hnil]

omit hroot in
/-- The nodes that a transition enters are coherent. -/
theorem coherent_entering (legal : chart.Legal p.configuration)
    (hremembers : chart.Remembers p.history) (hsiblings : chart.SiblingDefaults)
    (hsingle : chart.SingleTargets) (ht : t ∈ chart.transitions t.source) :
  chart.Coherent (p.entering chart [t])
  := by
  change chart.Coherent (addEntered chart (recorded chart p.configuration p.history [t]) [] t)
  have hremembers' := hremembers.recorded wf legal [t]
  generalize recorded chart p.configuration p.history [t] = history at hremembers'
  cases hd : chart.scope history t with
  | none =>
    rw [addEntered, scope_eq_none.mp hd]
    apply coherent_nil chart
  | some d =>
    obtain ⟨a, haims⟩ := wf.exists_aims hremembers' hsiblings ht (hsingle _ t ht) hd
    obtain ⟨-, -, -, -, hcoherent, -⟩ := wf.addEntered_spec (s := []) haims.aims haims.apart
      (scope_eq_some.mp hd).1 (fun x _ k hk => absurd hk List.not_mem_nil)
      (fun x _ _ _ _ y _ _ _ _ hy => absurd hy List.not_mem_nil)
    apply hcoherent (coherent_nil chart)

omit hroot in
/-- If a transition enters a child of its scope, a node between the scope and an entered
node is entered. -/
theorem mem_entering_of_between (legal : chart.Legal p.configuration)
    (hremembers : chart.Remembers p.history) (hsiblings : chart.SiblingDefaults)
    (hsingle : chart.SingleTargets) (ht : t ∈ chart.transitions t.source)
    {c q : Nat} (hc : c ∈ p.entering chart [t]) (hcd : chart.parent? c = some d)
    (hn : n ∈ p.entering chart [t]) (hnq : chart.isBelow n q = true)
    (hqd : chart.isBelow q d = true) :
  q ∈ p.entering chart [t]
  := by
  have hentering : p.entering chart [t] =
      addEntered chart (recorded chart p.configuration p.history [t]) [] t := rfl
  have hremembers' := hremembers.recorded wf legal [t]
  rw [hentering] at hc hn ⊢
  generalize recorded chart p.configuration p.history [t] = history at hremembers' hc hn ⊢
  obtain ⟨e, he⟩ : ∃ e, chart.scope history t = some e := by
    apply Option.ne_none_iff_exists'.mp
    intro hnone
    rw [addEntered, scope_eq_none.mp hnone] at hc
    cases hc
  obtain ⟨a, haims⟩ := wf.exists_aims hremembers' hsiblings ht (hsingle _ t ht) he
  obtain ⟨-, hland, hclimb, hnew, -, hrooted⟩ := wf.addEntered_spec (s := []) haims.aims
    haims.apart (scope_eq_some.mp he).1 (fun x _ k hk => absurd hk List.not_mem_nil)
    (fun x _ _ _ _ y _ _ _ _ hy => absurd hy List.not_mem_nil)
  have hrooted : chart.Rooted (fun _ => False) _ _ :=
    hrooted (fun k hk => absurd hk List.not_mem_nil)
  rcases hrooted n hn q hnq with hq | hfalse | ⟨w, hw, rfl | hwq⟩
  · exact hq
  · exact hfalse.elim
  · apply hland w hw
  -- otherwise the climbs stop within `q`, and `c` is not below where they stop
  by_contra hout
  have hstop : ∀ {e x}, (e, x) ∈ chart.climbs history t a → chart.Within e q := by
    intro e x he
    have he' := (wf.mem_climbs_of_aims haims).mpr ⟨hw, ((wf.mem_climbs_of_aims haims).mp he).2⟩
    exact wf.within_of_not_passes hwq (fun hpasses => hout (hclimb e w q he' hpasses))
  have hcontra : ∀ {e x}, (e, x) ∈ chart.climbs history t a → ¬ chart.isBelow c e = true := by
    intro e x he hce
    have hde := wf.within_parent hcd hce
    apply wf.not_isBelow_of_within (wf.within_trans hde (hstop he)) hqd
  have hbelow : ∀ {e x y}, (e, x) ∈ chart.climbs history t a →
      y ∈ chart.landings history a → chart.isBelow y e = true := by
    intro e x y he hy
    apply wf.isBelow_of_mem_climbs haims hremembers' hsiblings he _ hy
    rintro rfl
    have hle := wf.le_of_within (hstop he)
    have hlt := wf.lt_of_isBelow hqd
    rw [root] at hle
    omega
  rcases hnew c hc with hnil | ⟨x, hx, hcx⟩ | ⟨e, x, q', he, hpasses, hcq⟩
  · cases hnil
  · have he := (wf.mem_climbs_of_aims haims).mpr ⟨hx, Or.inl rfl⟩
    apply hcontra he (wf.within_isBelow hcx (hbelow he hx))
  · have hqe := hpasses.2 (hbelow he ((wf.mem_climbs_of_aims haims).mp he).1)
    rcases hcq with rfl | ⟨-, r, hr, -, hcr⟩
    · apply hcontra he hqe
    · have hcq := wf.within_isBelow hcr (wf.isBelow_of_parent (parent_of_mem_regions wf hr))
      apply hcontra he (wf.isBelow_trans hcq hqe)

omit hroot in
/-- If a transition is confined, what it enters fits together with what remains. -/
theorem fits_of_confined (legal : chart.Legal p.configuration)
    (hremembers : chart.Remembers p.history) (hsiblings : chart.SiblingDefaults)
    (hsingle : chart.SingleTargets) (ht : t ∈ chart.transitions t.source)
    (hsource : t.source ∈ p.configuration) (hconfined : Confined chart p t) :
  chart.Fits p [t]
  := by
  cases hd : chart.scope p.history t with
  | none =>
    have hnil := entering_of_scope_eq_none hd
    constructor
    case reached =>
      intro u d hu hd'
      rw [List.mem_singleton.mp hu, hd] at hd'
      cases hd'
    all_goals simp [hnil]
  | some d =>
    obtain ⟨⟨c, hc, hcd⟩, hinside⟩ := hconfined d hd
    have hdactive := legal.mem_of_within wf hsource
      (wf.within_scope (legal.lt_length hsource) hd)
    have hstays : ∀ {n}, n ∈ p.configuration → ¬ chart.isBelow n d = true →
        chart.Remains p [t] n := by
      intro n hn hnd
      use hn
      apply not_mem_exiting
      intro u hu d' hd'
      rw [List.mem_singleton.mp hu, hd, Option.some.injEq] at hd'
      rw [← hd']
      exact hnd
    constructor
    case parent =>
      intro n q hn hq
      by_cases hnd : chart.isBelow n d = true
      · rcases wf.within_parent hq hnd with rfl | hqd
        · exact Or.inr (hstays hdactive (wf.not_isBelow_self q))
        · left
          apply wf.mem_entering_of_between legal hremembers hsiblings hsingle ht hc hcd hn
            (wf.isBelow_of_parent hq) hqd
      · right
        have hactive := (hinside n hn).resolve_right hnd
        apply hstays (legal.parent_mem hactive hq)
        exact fun hqd => hnd (wf.isBelow_of_parent_within hq (Or.inr hqd))
    case unique =>
      intro k c c' hk hc hc' hcs hcs'
      have hcoherent := wf.coherent_entering legal hremembers hsiblings hsingle ht
      apply hcoherent.agree hk hc hc' hcs hcs' (within_refl chart c) (within_refl chart c')
    case located =>
      intro n hn
      rcases hinside n hn with hactive | hnd
      · exact Or.inl hactive
      · exact Or.inr ⟨t, List.mem_singleton_self t, d, hd, hnd⟩
    case reached =>
      intro u d' hu hd'
      rw [List.mem_singleton.mp hu, hd, Option.some.injEq] at hd'
      rw [← hd']
      exact ⟨c, hc, wf.isBelow_of_parent hcd⟩

omit hroot in
/-- What one transition enters fits together with what remains exactly if the transition is
confined. -/
theorem fits_iff_confined (legal : chart.Legal p.configuration)
    (hremembers : chart.Remembers p.history) (hsiblings : chart.SiblingDefaults)
    (hsingle : chart.SingleTargets) (ht : t ∈ chart.transitions t.source)
    (hsource : t.source ∈ p.configuration) :
  chart.Fits p [t] ↔ chart.Confined p t
  := by
  constructor
  · apply wf.confined_of_fits
  · apply wf.fits_of_confined legal hremembers hsiblings hsingle ht hsource

end WellFormed

end Statechart.Chart
