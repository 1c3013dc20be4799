import Statechart.Proofs.Resolution.Expansion

/-!
# Isolation of regions

A transition whose source and targets lie below a compound node, such as a region of a
parallel node, exits nodes below it alone (`isBelow_of_mem_exiting`).  What it enters lies
below the node as well, exactly if each history node that its aim leads to has its parent
within the node and restores nodes below its own parent (`isBelow_entering_iff`).
-/

namespace Statechart.Chart

open Progress

/-- Whether a history node lies below `r` and stands for nodes below its own parent. -/
def Encloses (chart : Chart) (history : History) (r h : Nat) : Prop :=
  ∀ p, chart.parent? h = some p →
    chart.Within p r ∧ ∀ x ∈ chart.landings history h, chart.isBelow x p = true

namespace WellFormed

variable {chart : Chart} {history : History}
  {p : Progress} {t : Transition} {targets : List Nat} {fuel r n a x q c : Nat}
  (wf : chart.WellFormed)

include wf

/-! ### Exited nodes -/

/-- The domain lies within each compound node that the source and the targets lie below. -/
theorem domain_within (hr : (chart.kind r).isCompound = true)
    (hsource : chart.isBelow t.source r = true)
    (htargets : ∀ x ∈ targets, chart.isBelow x r = true) :
  chart.Within (chart.domain t targets) r
  := by
  rcases domain_cases chart t targets with ⟨heq, -⟩ | ⟨heq, -⟩
  · rw [heq]
    exact Or.inr hsource
  · rw [heq]
    rcases wf.commonAncestor_spec t.source targets with ⟨habove, -, -, hnearest⟩ | ⟨-, hnone⟩
    · rcases wf.within_total (Or.inr habove) (Or.inr hsource) with h | hlow
      · exact h
      · obtain ⟨m, hm, hmr⟩ := hnearest r hsource (Or.inr hr) hlow
        exact absurd (htargets m hm) hmr
    · obtain ⟨m, hm, hmr⟩ := hnone r hsource (Or.inr hr)
      exact absurd (htargets m hm) hmr

theorem isBelow_of_mem_exiting (hr : (chart.kind r).isCompound = true)
    (hsource : chart.isBelow t.source r = true)
    (htargets : ∀ x ∈ chart.effectiveTargets p.history t, chart.isBelow x r = true)
    (hn : n ∈ p.exiting chart [t]) :
  chart.isBelow n r = true
  := by
  obtain ⟨-, u, hu, d, hd, hnd⟩ := mem_exiting.mp hn
  rw [List.mem_singleton.mp hu] at hd
  rw [← (scope_eq_some.mp hd).2] at hnd
  apply wf.isBelow_of_within hnd (wf.domain_within hr hsource htargets)

/-! ### Restored targets -/

/-- Where what a target stands for lies below a node, so does what it stands for after nodes
below that node have recorded their histories. -/
theorem isBelow_standsFor_recorded (hplain : chart.Plain p.configuration p.history)
    (hexiting : ∀ n ∈ p.exiting chart [t], chart.isBelow n r = true)
    (htargets : ∀ x ∈ chart.standsFor p.history fuel a, chart.isBelow x r = true)
    (hx : x ∈ chart.standsFor (recorded chart p.configuration p.history [t]) fuel a) :
  chart.isBelow x r = true
  := by
  rcases wf.standsFor_recorded_cases hplain [t] fuel a with heq | ⟨q, hq, hbelow⟩
  · rw [heq] at hx
    apply htargets x hx
  · apply wf.isBelow_trans (hbelow x hx) (hexiting q hq)

/-- The targets of a transition stay below a compound node when histories are recorded. -/
theorem isBelow_targets_recorded (hplain : chart.Plain p.configuration p.history)
    (hr : (chart.kind r).isCompound = true) (hsource : chart.isBelow t.source r = true)
    (htargets : ∀ x ∈ chart.effectiveTargets p.history t, chart.isBelow x r = true)
    (hx : x ∈ chart.effectiveTargets (recorded chart p.configuration p.history [t]) t) :
  chart.isBelow x r = true
  := by
  have hexiting := fun n hn => wf.isBelow_of_mem_exiting (p := p) (n := n) hr hsource htargets hn
  rw [effectiveTargets, List.mem_eraseDups, List.mem_flatMap] at hx
  obtain ⟨a, ha, hx⟩ := hx
  apply wf.isBelow_standsFor_recorded hplain hexiting _ hx
  intro y hy
  apply htargets y
  rw [effectiveTargets, List.mem_eraseDups, List.mem_flatMap]
  exact ⟨a, ha, hy⟩

/-! ### Entered nodes -/

/-- A climb from a node below `r` passes nodes below `r` alone exactly if its ceiling lies
within `r` and above the node. -/
theorem isBelow_of_passes_iff (hx : chart.isBelow x r = true) :
  (∀ q, chart.Passes c x q → chart.isBelow q r = true) ↔
    chart.Within c r ∧ chart.isBelow x c = true
  := by
  constructor
  · intro hall
    have hxlt := lt_length_of_isBelow hx
    have hxroot : x ≠ root := by
      rintro rfl
      apply wf.not_isBelow_of_root r hx
    have hxc : chart.isBelow x c = true := by
      by_contra hxc
      apply wf.not_isBelow_of_root r
        (hall root ⟨wf.isBelow_root hxlt hxroot, fun h => absurd h hxc⟩)
    constructor
    · apply wf.within_of_not_passes hx (fun h => wf.not_isBelow_self r (hall r h))
    · exact hxc
  · rintro ⟨hcr, hxc⟩ q hq
    apply wf.isBelow_of_within (hq.2 hxc) hcr

/-- A transition whose domain lies within `r` adds nodes below `r` alone if the history nodes
that its aim leads to are enclosed. -/
theorem isBelow_of_encloses {s : NodeSet} (haims : t.aims = [a])
    (hdomain : chart.Within (chart.domain t (chart.effectiveTargets history t)) r)
    (htargets : ∀ x ∈ chart.effectiveTargets history t, chart.isBelow x r = true)
    (hencloses : ∀ h, chart.Leads history a h → (chart.kind h).isHistory = true →
      chart.Encloses history r h)
    (hn : n ∈ addEntered chart history s t) :
  n ∈ s ∨ chart.isBelow n r = true
  := by
  have hstands : ∀ x ∈ chart.standsFor history chart.depthBound a, chart.isBelow x r = true :=
    fun x hx => htargets x ((mem_effectiveTargets_iff haims).mpr hx)
  rw [addEntered] at hn
  split at hn
  · exact Or.inl hn
  rw [haims, List.foldl_cons, List.foldl_nil] at hn
  rcases NodeSet.mem_foldl_cases (fun m _ s hk => wf.within_of_mem_ascend hk) hn with
    hn | ⟨x, hx, q, hq, hnq⟩
  · rcases wf.mem_enterTarget_cases hn with hns | ⟨x, hx, hnx⟩ |
      ⟨h, p, x, q, hleads, hh, hp, hx, hq, hnq⟩
    · exact Or.inl hns
    · exact Or.inr (wf.within_isBelow hnx (hstands x hx))
    · obtain ⟨hpr, hbelow⟩ := hencloses h hleads hh p hp
      exact Or.inr (wf.within_isBelow hnq (wf.isBelow_of_within (hq.2 (hbelow x hx)) hpr))
  · right
    have hxd : chart.isBelow x (chart.domain t (chart.effectiveTargets history t)) = true := by
      by_cases hroot : chart.domain t (chart.effectiveTargets history t) = root
      · rw [hroot] at hdomain ⊢
        rcases hdomain with heq | hbelow
        · rw [heq]
          apply htargets x hx
        · exact absurd hbelow (wf.not_isBelow_of_root r)
      · apply wf.isBelow_domain hx hroot
    apply wf.within_isBelow hnq
      ((wf.isBelow_of_passes_iff (htargets x hx)).mpr ⟨hdomain, hxd⟩ q hq)

/-- If what a target stands for and the climbs of the history nodes that it leads to stay
below `r`, these history nodes are enclosed. -/
theorem encloses_of_isBelow {configuration : NodeSet}
    (hplain : chart.Plain configuration history) (hne : chart.standsFor history fuel a ≠ [])
    (hstands : ∀ x ∈ chart.standsFor history fuel a, chart.isBelow x r = true)
    (hclimbs : ∀ h p x q, chart.Leads history a h → (chart.kind h).isHistory = true →
      chart.parent? h = some p → x ∈ chart.landings history h → chart.isBelow x r = true →
      chart.Passes p x q → chart.isBelow q r = true) :
  chart.isBelow a r = true ∧
  ∀ h, chart.Leads history a h → (chart.kind h).isHistory = true → chart.Encloses history r h
  := by
  induction fuel generalizing a with
  | zero =>
    exfalso
    apply hne rfl
  | succ fuel ih =>
    cases ha : (chart.kind a).isHistory with
    | false =>
      rw [standsFor_of_plain ha] at hstands
      use hstands a (List.mem_singleton_self a)
      intro h hleads hh
      cases hleads with
      | refl =>
        rw [ha] at hh
        cases hh
      | step hk hm hrest =>
        rw [ha] at hk
        cases hk
    | true =>
      obtain ⟨p, hp⟩ := wf.exists_parent_of_isHistory ha
      have hrest := fun x (hx : x ∈ chart.landings history a) =>
        ih (a := x) (wf.standsFor_ne_nil hplain ha hne hx)
          (fun y hy => hstands y (by
            rw [standsFor_of_history ha]
            apply List.mem_flatMap.mpr ⟨x, hx, hy⟩))
          (fun h p y q hleads => hclimbs h p y q (.step ha hx hleads))
      have hceiling : ∀ x ∈ chart.landings history a,
          chart.Within p r ∧ chart.isBelow x p = true := by
        intro x hx
        apply (wf.isBelow_of_passes_iff (hrest x hx).1).mp
        exact fun q hq => hclimbs a p x q .refl ha hp hx (hrest x hx).1 hq
      have hpr : chart.Within p r := by
        have hlandings : chart.landings history a ≠ [] := by
          intro hnil
          rw [standsFor_of_history ha, hnil] at hne
          apply hne rfl
        obtain ⟨x, hx⟩ := List.exists_mem_of_ne_nil _ hlandings
        exact (hceiling x hx).1
      use wf.isBelow_of_within (wf.isBelow_of_parent hp) hpr
      intro h hleads hh
      cases hleads with
      | refl =>
        intro p' hp'
        rw [hp, Option.some.injEq] at hp'
        subst hp'
        exact ⟨hpr, fun x hx => (hceiling x hx).2⟩
      | step hk hm hleads => exact (hrest _ hm).2 h hleads hh

/-- A microstep under a transition whose source and targets lie below `r` enters nodes below
`r` alone exactly if no target is left when the histories are recorded, or the history nodes
that its aim leads to are enclosed. -/
theorem isBelow_entering_iff (hplain : chart.Plain p.configuration p.history)
    (hr : (chart.kind r).isCompound = true) (hsource : chart.isBelow t.source r = true)
    (htargets : ∀ x ∈ chart.effectiveTargets p.history t, chart.isBelow x r = true)
    (hsingle : t.targets.length ≤ 1) :
  (∀ n ∈ p.entering chart [t], chart.isBelow n r = true) ↔
    chart.effectiveTargets (recorded chart p.configuration p.history [t]) t = [] ∨
    ∀ a ∈ t.aims, ∀ h, chart.Leads (recorded chart p.configuration p.history [t]) a h →
      (chart.kind h).isHistory = true →
      chart.Encloses (recorded chart p.configuration p.history [t]) r h
  := by
  have hentering : p.entering chart [t] =
      addEntered chart (recorded chart p.configuration p.history [t]) [] t := rfl
  have htargets' := fun x hx =>
    wf.isBelow_targets_recorded (x := x) hplain hr hsource htargets hx
  have hplain' := hplain.recorded wf [t]
  rw [hentering]
  generalize recorded chart p.configuration p.history [t] = history at htargets' hplain'
  by_cases hnil : chart.effectiveTargets history t = []
  · simp [addEntered, hnil]
  rcases aims_cases hsingle with haims | ⟨a, haims⟩
  · exact absurd (effectiveTargets_of_aims_nil haims) hnil
  rw [or_iff_right hnil, haims, List.forall_mem_singleton]
  constructor
  · intro hall
    have hne : chart.standsFor history chart.depthBound a ≠ [] := by
      obtain ⟨x, hx⟩ := List.exists_mem_of_ne_nil _ hnil
      apply List.ne_nil_of_mem ((mem_effectiveTargets_iff haims).mp hx)
    apply (wf.encloses_of_isBelow hplain' hne
      (fun x hx => htargets' x ((mem_effectiveTargets_iff haims).mpr hx)) _).2
    intro h q x b hleads hh hq hx _ hb
    apply hall b
    apply wf.mem_addEntered_of_enterTarget haims hnil
    exact fun s => wf.mem_enterTarget_of_passes hplain' hne hleads hh hq hx hb
  · intro hencloses n hn
    have hdomain := wf.domain_within hr hsource htargets'
    exact (wf.isBelow_of_encloses haims hdomain htargets' hencloses hn).resolve_left
      List.not_mem_nil

end WellFormed

end Statechart.Chart
