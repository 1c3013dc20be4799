import Statechart.Proofs.Resolution.Isolation
import Statechart.Proofs.Resolution.Legality

/-!
# Reentry

A microstep enters no node that remains active, exactly if each of its transitions moves
inside the scope of one of them after the histories are recorded
(`not_remains_entering_iff`).  A transition to a state other than the root always does.
-/

namespace Statechart.Chart

open Progress

/-- Whether a transition moves inside `r`: its domain lies within `r`, its targets lie below
`r`, and so do the parents of the history nodes that it climbs to. -/
structure MovesInside (chart : Chart) (history : History) (t : Transition) (r : Nat) :
    Prop where
  domain : chart.Within (chart.domain t (chart.effectiveTargets history t)) r
  targets : ∀ x ∈ chart.effectiveTargets history t, chart.isBelow x r = true
  encloses : ∀ a ∈ t.aims, ∀ h, chart.Leads history a h → (chart.kind h).isHistory = true →
    chart.Encloses history r h

/-- Whether a transition of a microstep, after the histories are recorded, leads nowhere or
moves inside the scope that one of the transitions had before. -/
def Inward (chart : Chart) (p : Progress) (ts : List Transition) (t : Transition) : Prop :=
  chart.effectiveTargets (recorded chart p.configuration p.history ts) t = [] ∨
    ∃ u ∈ ts, ∃ d, chart.scope p.history u = some d ∧
      chart.MovesInside (recorded chart p.configuration p.history ts) t d

/-- Whether transitions aim at states other than the root, and at no history nodes. -/
def AimsAtStates (chart : Chart) : Prop :=
  ∀ n, ∀ t ∈ chart.transitions n, ∀ a ∈ t.aims, a ≠ root ∧ (chart.kind a).isHistory = false

instance (chart : Chart) : Decidable chart.AimsAtStates :=
  decidable_of_iff
    (∀ n ∈ List.range chart.nodes.length, ∀ t ∈ chart.transitions n, ∀ a ∈ t.aims,
      a ≠ root ∧ (chart.kind a).isHistory = false) (by
      constructor
      · intro hall n t ht
        apply hall n (List.mem_range.mpr (lt_of_mem_transitions ht)) t ht
      · intro hall n _
        apply hall n)

variable {chart : Chart} {p : Progress} {history : History} {ts : List Transition}
  {t u : Transition} {a b d n : Nat}

/-- The nodes that a microstep enters are listed in document order, each once. -/
theorem entering_increasing (p : Progress) (ts : List Transition) :
  (p.entering chart ts).Pairwise (· < ·)
  := by
  rw [entering, entered]
  apply List.foldlRecOn (motive := fun s : NodeSet => s.Pairwise (· < ·)) _ _ List.Pairwise.nil
  exact fun s hs t _ => addEntered_preserves (fun n s => NodeSet.insert_increasing) hs

/-- The nodes that a microstep exits are listed in document order, each once. -/
theorem exiting_increasing (legal : chart.Legal p.configuration) (ts : List Transition) :
  (p.exiting chart ts).Pairwise (· < ·)
  := legal.increasing.filter _

/-- What a transition enters in any case, the microstep enters. -/
theorem mem_entering (ht : t ∈ ts)
    (hn : ∀ s, n ∈ addEntered chart (recorded chart p.configuration p.history ts) s t) :
  n ∈ p.entering chart ts
  := NodeSet.mem_foldl_of_mem (fun _ _ hk => subset_addEntered hk) ht hn

namespace WellFormed

variable (wf : chart.WellFormed)

include wf

/-- What the scope of one of several transitions lies within remains, if these exit no node
in common. -/
theorem remains_of_disjoint (legal : chart.Legal p.configuration)
    (hts : ∀ t ∈ ts, t.source ∈ p.configuration)
    (hdisjoint : ts.Pairwise (fun t u => List.Disjoint
      (chart.exited p.configuration p.history [t])
      (chart.exited p.configuration p.history [u])))
    (hu : u ∈ ts) (hd : chart.scope p.history u = some d) (hdb : chart.Within d b) :
  chart.Remains p ts b
  := by
  have hactive := legal.mem_of_within wf (hts u hu)
    (wf.within_scope (legal.lt_length (hts u hu)) hd)
  use legal.mem_of_within wf hactive hdb
  intro hexited
  obtain ⟨-, v, hv, e, he, hbe⟩ := mem_exiting.mp hexited
  have hde := wf.within_isBelow hdb hbe
  have huv : u ≠ v := by
    rintro rfl
    rw [hd, Option.some.injEq] at he
    rw [he] at hde
    apply wf.not_isBelow_self e hde
  -- the active child of the scope would be exited by both transitions
  have hne : d ≠ root := by
    rintro rfl
    apply wf.not_isBelow_of_root e hde
  obtain ⟨c, ⟨hc, hcd⟩, -⟩ := legal.child hactive ((wf.isCeiling_scope hd).resolve_left hne)
  have hbelow := wf.isBelow_of_parent hcd
  apply disjoint_of_pairwise hdisjoint hu hv huv (mem_exited_singleton.mpr ⟨hc, d, hd, hbelow⟩)
  apply mem_exited_singleton.mpr ⟨hc, e, he, wf.isBelow_trans hbelow hde⟩

/-- If all transitions are inward, no entered node remains. -/
theorem not_remains_of_inward (hsingle : ∀ t ∈ ts, t.targets.length ≤ 1)
    (hinward : ∀ t ∈ ts, chart.Inward p ts t) (hn : n ∈ p.entering chart ts) :
  ¬ chart.Remains p ts n
  := by
  rintro ⟨hactive, hstays⟩
  have hadded : ∀ t ∈ ts, ∀ s,
      n ∈ addEntered chart (recorded chart p.configuration p.history ts) s t →
      n ∈ s ∨ n ∈ p.exiting chart ts := by
    intro t ht s hn
    rcases hinward t ht with hnil | ⟨u, hu, d, hd, hinside⟩
    · rw [addEntered, hnil] at hn
      exact Or.inl hn
    rcases aims_cases (hsingle t ht) with haims | ⟨a, haims⟩
    · rw [addEntered, effectiveTargets_of_aims_nil haims] at hn
      exact Or.inl hn
    rcases wf.isBelow_of_encloses haims hinside.domain hinside.targets
      (hinside.encloses a (by simp [haims])) hn with hn | hnd
    · exact Or.inl hn
    · exact Or.inr (mem_exiting.mpr ⟨hactive, u, hu, d, hd, hnd⟩)
  rcases NodeSet.mem_foldl_cases hadded hn with hnil | ⟨-, -, hexited⟩
  · cases hnil
  · apply hstays hexited

/-- If the root is not entered, the targets of a transition after the histories are recorded
lie below the scope of some transition. -/
theorem exists_scope_above (hplain : chart.Plain p.configuration p.history) (ht : t ∈ ts)
    (haims : t.aims = [a])
    (hne : chart.effectiveTargets (recorded chart p.configuration p.history ts) t ≠ [])
    (hroot : root ∉
      chart.effectiveTargets (recorded chart p.configuration p.history ts) t)
    (hlt : ∀ x ∈ chart.effectiveTargets (recorded chart p.configuration p.history ts) t,
      x < chart.nodes.length) :
  ∃ u ∈ ts, ∃ d, chart.scope p.history u = some d ∧
    ∀ x ∈ chart.effectiveTargets (recorded chart p.configuration p.history ts) t,
      chart.isBelow x d = true
  := by
  rcases wf.standsFor_recorded_cases hplain ts chart.depthBound a with heq | ⟨q, hq, hbelow⟩
  · have htargets : chart.effectiveTargets (recorded chart p.configuration p.history ts) t =
        chart.effectiveTargets p.history t := by
      rw [effectiveTargets, effectiveTargets, haims, List.flatMap_singleton,
        List.flatMap_singleton, heq]
    rw [htargets] at hne hroot hlt ⊢
    use t, ht, chart.domain t (chart.effectiveTargets p.history t),
      scope_eq_some.mpr ⟨hne, rfl⟩
    intro x hx
    by_cases hdomain : chart.domain t (chart.effectiveTargets p.history t) = root
    · rw [hdomain]
      apply wf.isBelow_root (hlt x hx)
      rintro rfl
      apply hroot hx
    · apply wf.isBelow_domain hx hdomain
  · obtain ⟨-, u, hu, d, hd, hqd⟩ := mem_exiting.mp hq
    use u, hu, d, hd
    intro x hx
    apply wf.isBelow_trans (hbelow x ((mem_effectiveTargets_iff haims).mp hx)) hqd

/-- A transition whose targets lie below `d` moves inside `d` if it enters neither `d` nor a
node above it in any case. -/
theorem movesInside_of_not_mem (hplain : chart.Plain p.configuration history)
    (haims : t.aims = [a]) (hne : chart.effectiveTargets history t ≠ [])
    (hbelow : ∀ x ∈ chart.effectiveTargets history t, chart.isBelow x d = true)
    (hnot : ∀ b, chart.Within d b → ¬ ∀ s, b ∈ addEntered chart history s t) :
  chart.MovesInside history t d
  := by
  obtain ⟨x, hx⟩ := List.exists_mem_of_ne_nil _ hne
  constructor
  case domain =>
    -- the climb to the domain would pass `d`
    apply wf.within_of_not_passes (hbelow x hx)
    intro hpasses
    apply hnot d (within_refl chart d)
    exact fun s => wf.mem_addEntered_of_passes hx hpasses
  case targets => exact hbelow
  case encloses =>
    rw [haims, List.forall_mem_singleton]
    have hstands := List.ne_nil_of_mem ((mem_effectiveTargets_iff haims).mp hx)
    apply (wf.encloses_of_isBelow hplain hstands
      (fun y hy => hbelow y ((mem_effectiveTargets_iff haims).mpr hy)) _).2
    intro h q y b hleads hh hq hy hyd hb
    rcases wf.within_total (Or.inr hyd) (Or.inr hb.1) with hdb | hbd
    · exfalso
      apply hnot b hdb
      intro s
      apply wf.mem_addEntered_of_enterTarget haims hne
      exact fun s => wf.mem_enterTarget_of_passes hplain hstands hleads hh hq hy hb
    · exact hbd

/-- If no entered node remains, all transitions are inward. -/
theorem inward_of_not_remains (hplain : chart.Plain p.configuration p.history)
    (legal : chart.Legal p.configuration)
    (hts : ∀ t ∈ ts, t ∈ chart.transitions t.source ∧ t.source ∈ p.configuration)
    (hdisjoint : ts.Pairwise (fun t u => List.Disjoint
      (chart.exited p.configuration p.history [t])
      (chart.exited p.configuration p.history [u])))
    (ht : t ∈ ts) (hsingle : t.targets.length ≤ 1)
    (hfresh : ∀ n ∈ p.entering chart ts, ¬ chart.Remains p ts n) :
  chart.Inward p ts t
  := by
  have hremains : ∀ {u d}, u ∈ ts → chart.scope p.history u = some d → ∀ b, chart.Within d b →
      chart.Remains p ts b :=
    fun hu hd b => wf.remains_of_disjoint legal (fun t ht => (hts t ht).2) hdisjoint hu hd
  have hrootStays : chart.Remains p ts root :=
    ⟨legal.root_mem, not_mem_exiting (fun _ _ d _ => wf.not_isBelow_of_root d)⟩
  have hplain' := hplain.recorded wf ts
  have hfresh : ∀ n, (∀ s, n ∈ addEntered chart (recorded chart p.configuration p.history ts)
      s t) → ¬ chart.Remains p ts n :=
    fun n hn => hfresh n (mem_entering ht hn)
  rw [Inward, or_iff_not_imp_left]
  intro hne
  rcases wf.aim_cases (hts t ht).1 hsingle with haims | ⟨a, haims, halt⟩
  · exact absurd (effectiveTargets_of_aims_nil haims) hne
  have hscope := wf.exists_scope_above hplain ht haims hne
  generalize recorded chart p.configuration p.history ts = history at hne hplain' hfresh hscope ⊢
  have htarget : ∀ x ∈ chart.effectiveTargets history t, ¬ chart.Remains p ts x := by
    intro x hx
    apply hfresh x
    intro s
    apply wf.mem_addEntered_of_enterTarget haims hne
    exact fun s => wf.mem_enterTarget_of_standsFor ((mem_effectiveTargets_iff haims).mp hx)
  obtain ⟨u, hu, d, hd, hbelow⟩ := hscope (fun hroot => htarget root hroot hrootStays)
    (fun x hx => wf.lt_of_mem_standsFor hplain' halt ((mem_effectiveTargets_iff haims).mp hx))
  use u, hu, d, hd
  apply wf.movesInside_of_not_mem hplain' haims hne hbelow
  exact fun b hdb hn => hfresh b hn (hremains hu hd b hdb)

/-- A microstep from a legal configuration under transitions that exit no node in common
enters no node that remains, exactly if all its transitions are inward. -/
theorem not_remains_entering_iff (hplain : chart.Plain p.configuration p.history)
    (legal : chart.Legal p.configuration)
    (hts : ∀ t ∈ ts, t ∈ chart.transitions t.source ∧ t.source ∈ p.configuration)
    (hdisjoint : ts.Pairwise (fun t u => List.Disjoint
      (chart.exited p.configuration p.history [t])
      (chart.exited p.configuration p.history [u])))
    (hsingle : chart.SingleTargets) :
  (∀ n ∈ p.entering chart ts, ¬ chart.Remains p ts n) ↔ ∀ t ∈ ts, chart.Inward p ts t
  := by
  have hsingle : ∀ t ∈ ts, t.targets.length ≤ 1 := fun t ht => hsingle _ t (hts t ht).1
  constructor
  · intro hfresh t ht
    apply wf.inward_of_not_remains hplain legal hts hdisjoint ht (hsingle t ht) hfresh
  · exact fun hinward n hn => wf.not_remains_of_inward hsingle hinward hn

/-- A transition that aims at states other than the root is inward. -/
theorem inward_of_plain (ht : t ∈ ts) (hmem : t ∈ chart.transitions t.source)
    (hsingle : t.targets.length ≤ 1)
    (haims : ∀ a ∈ t.aims, a ≠ root ∧ (chart.kind a).isHistory = false) :
  chart.Inward p ts t
  := by
  rcases wf.aim_cases hmem hsingle with hnil | ⟨a, ha, halt⟩
  · exact Or.inl (effectiveTargets_of_aims_nil hnil)
  rw [ha, List.forall_mem_singleton] at haims
  obtain ⟨hne, hplain⟩ := haims
  have htargets : ∀ history, chart.effectiveTargets history t = [a] :=
    fun _ => wf.effectiveTargets_of_plain ha hplain
  right
  use t, ht, chart.domain t [a], scope_eq_some.mpr (by simp [htargets])
  constructor
  case domain =>
    rw [htargets]
    apply within_refl chart
  case targets =>
    rw [htargets, List.forall_mem_singleton]
    by_cases hroot : chart.domain t [a] = root
    · rw [hroot]
      apply wf.isBelow_root halt hne
    · apply wf.isBelow_domain (List.mem_singleton_self a) hroot
  case encloses =>
    rw [ha, List.forall_mem_singleton]
    intro h hleads hh
    cases hleads with
    | refl =>
      rw [hplain] at hh
      cases hh
    | step hk hm hrest =>
      rw [hplain] at hk
      cases hk

end WellFormed

end Statechart.Chart
