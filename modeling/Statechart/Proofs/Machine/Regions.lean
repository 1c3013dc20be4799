import Statechart.Proofs.Machine.Legality

/-!
# Regions of a parallel root

The root may be the scope of a transition although it is parallel.  Such a transition exits
all regions of the root and enters those again that its climbs pass (`mem_after_iff`), so a
region is active in a snapshot exactly if the run behind it recovers the region
(`regions_of_run`).
-/

namespace Statechart

namespace Progress.Step

open Chart (root)

/-- Whether a microstep exits the regions of the root: some transition moves inside the
root. -/
def Clears (chart : Chart) (x : Step) : Prop :=
  ∃ t ∈ x.transitions, chart.scope x.before.history t = some root

/-- Whether a microstep enters a node. -/
def Enters (chart : Chart) (n : Nat) (x : Step) : Prop :=
  n ∈ x.before.entering chart x.transitions

/-- Whether the microsteps enter a node again when they have exited the regions of the
root. -/
def Recover (chart : Chart) (n : Nat) : List Step → Prop
  | [] => True
  | x :: xs => (x.Clears chart → ∃ z ∈ x :: xs, z.Enters chart n) ∧ Recover chart n xs

variable {chart : Chart} {n : Nat} {x : Step} {xs ys : List Step}

/-- A node that is kept or entered by a microstep, and recovered by the microsteps after it,
is recovered by all of them. -/
theorem recover_cons {active : Prop} :
  ((active ∧ ¬ x.Clears chart ∨ x.Enters chart n) ∨ ∃ z ∈ xs, z.Enters chart n) ∧
      Recover chart n xs ↔
    (active ∨ ∃ z ∈ x :: xs, z.Enters chart n) ∧ Recover chart n (x :: xs)
  := by
  have hexists : (∃ z ∈ x :: xs, z.Enters chart n) ↔
      x.Enters chart n ∨ ∃ z ∈ xs, z.Enters chart n := by
    simp only [List.mem_cons, exists_eq_or_imp]
  rw [Recover, or_assoc, ← hexists]
  by_cases hxs : ∃ z ∈ x :: xs, z.Enters chart n
  · simp only [hxs, or_true, implies_true, true_and]
  · simp only [hxs, or_false, imp_false, and_assoc]

theorem recover_append :
  Recover chart n (xs ++ ys) ↔
    (Recover chart n xs ∨ ∃ z ∈ ys, z.Enters chart n) ∧ Recover chart n ys
  := by
  induction xs with
  | nil => simp [Recover]
  | cons x xs ih =>
    have hexists : (∃ z ∈ x :: (xs ++ ys), z.Enters chart n) ↔
        (∃ z ∈ x :: xs, z.Enters chart n) ∨ ∃ z ∈ ys, z.Enters chart n := by
      simp only [List.mem_cons, List.mem_append, or_and_right, exists_or, or_assoc]
    rw [List.cons_append, Recover, Recover, ih, hexists]
    by_cases hys : ∃ z ∈ ys, z.Enters chart n
    · simp [hys]
    · simp [hys, and_assoc]

end Progress.Step

namespace Chart

open Progress

/-- Whether a transition to a node keeps the regions of the root: it stays below a compound
node above its source, or below its compound source if it is internal, or it leads to the
root or into the only region. -/
def KeepsRegions (chart : Chart) (t : Transition) (a : Nat) : Prop :=
  (∃ k, (chart.kind k).isCompound = true ∧ chart.isBelow a k = true ∧
    (chart.isBelow t.source k = true ∨ t.internal = true ∧ t.source = k)) ∨
  a = root ∨ ∀ r ∈ chart.regions root, chart.Within a r

namespace WellFormed

variable {chart : Chart} {imps : Implementations} {history : History} {t : Transition}
  {a r d : Nat} (wf : chart.WellFormed)

include wf

theorem isBelow_region_iff (hr : r ∈ chart.regions root) :
  chart.isBelow r d = true ↔ d = root
  := by
  have hp := parent_of_mem_regions wf hr
  constructor
  · intro hrd
    rcases wf.within_parent hp hrd with heq | hroot
    · apply heq.symm
    · exact absurd hroot (wf.not_isBelow_of_root d)
  · rintro rfl
    apply wf.isBelow_of_parent hp

/-- A region of the root is active after a microstep if it was and the regions are not
exited, or if it is entered. -/
theorem mem_after_iff (hr : r ∈ chart.regions root) (x : Step) :
  r ∈ (x.after chart imps).configuration ↔
    (r ∈ x.before.configuration ∧ ¬ x.Clears chart) ∨ x.Enters chart r
  := by
  have hexiting : r ∈ x.before.configuration →
      (r ∈ x.before.exiting chart x.transitions ↔ x.Clears chart) := by
    intro hactive
    rw [mem_exiting, Step.Clears]
    constructor
    · rintro ⟨-, t, ht, d, hd, hrd⟩
      rw [(wf.isBelow_region_iff hr).mp hrd] at hd
      exact ⟨t, ht, hd⟩
    · rintro ⟨t, ht, hd⟩
      exact ⟨hactive, t, ht, root, hd, (wf.isBelow_region_iff hr).mpr rfl⟩
  rw [Step.after, mem_configuration_microstep, Step.Enters]
  apply or_congr_left
  apply and_congr_right (fun hactive => not_congr (hexiting hactive))

/-! ### Plain aims -/

/-- A transition to a plain node moves inside a parallel root unless it stays below a
compound node above its source, or below its compound source if it is internal. -/
theorem scope_eq_root_iff (hroot : (chart.kind root).isParallel = true)
    (haims : t.aims = [a]) (hplain : (chart.kind a).isHistory = false) :
  chart.scope history t = some root ↔
    ¬ ∃ k, (chart.kind k).isCompound = true ∧ chart.isBelow a k = true ∧
      (chart.isBelow t.source k = true ∨ t.internal = true ∧ t.source = k)
  := by
  have hnot : ∀ {k}, (chart.kind k).isCompound = true → k ≠ root := by
    rintro k hk rfl
    rw [(Kind.plain_of_isParallel hroot).2.1] at hk
    cases hk
  rw [scope_eq_some, wf.effectiveTargets_of_plain haims hplain]
  constructor
  · rintro ⟨-, hdomain⟩ ⟨k, hk, hak, hsk⟩
    have hlt := lt_length_of_isBelow hak
    have hkroot := wf.isBelow_root (wf.lt_length_of_within hlt (Or.inr hak)) (hnot hk)
    have hall : ∀ m ∈ [a], chart.isBelow m k = true := by simpa using hak
    rcases domain_cases chart t [a] with ⟨heq, -, hcompound, -⟩ | ⟨heq, hinternal⟩
    · rw [heq] at hdomain
      apply hnot hcompound hdomain
    · rcases hsk with hsk | ⟨hi, rfl⟩
      · have hnone : ∃ m ∈ [a], ¬ chart.isBelow m k = true := by
          rcases wf.commonAncestor_spec t.source [a] with ⟨-, -, -, hnearest⟩ | ⟨-, hnone⟩
          · rw [← heq, hdomain] at hnearest
            apply hnearest k hsk (Or.inr hk) hkroot
          · apply hnone k hsk (Or.inr hk)
        obtain ⟨m, hm, hmk⟩ := hnone
        apply hmk (hall m hm)
      · apply hinternal ⟨hi, hk, hall⟩
  · intro hno
    use List.cons_ne_nil a []
    by_contra hne
    have hk : (chart.kind (chart.domain t [a])).isCompound = true :=
      (wf.isCeiling_domain t [a]).resolve_left hne
    have hbelow := wf.isBelow_domain (List.mem_singleton_self a) hne
    rcases domain_cases chart t [a] with ⟨heq, hi, -, -⟩ | ⟨heq, -⟩
    · apply hno ⟨_, hk, hbelow, Or.inr ⟨hi, heq.symm⟩⟩
    · rcases wf.commonAncestor_spec t.source [a] with ⟨hsource, -⟩ | ⟨heq', -⟩
      · rw [← heq] at hsource
        apply hno ⟨_, hk, hbelow, Or.inl hsource⟩
      · apply hne (heq.trans heq')

/-- A transition to a plain node that moves inside the root enters the region of the node,
and all regions if the node is the root. -/
theorem mem_entering_of_plain {p : Progress} (haims : t.aims = [a])
    (ha : a < chart.nodes.length) (hplain : (chart.kind a).isHistory = false)
    (hroot : (chart.kind root).isParallel = true) (hscope : chart.scope p.history t = some root)
    (hr : r ∈ chart.regions root) :
  r ∈ p.entering chart [t] ↔ a = root ∨ chart.Within a r
  := by
  have hscope : chart.scope (recorded chart p.configuration p.history [t]) t = some root := by
    rw [scope_eq_some, wf.effectiveTargets_of_plain haims hplain] at hscope ⊢
    exact hscope
  change r ∈ Progress.addEntered chart (recorded chart p.configuration p.history [t]) [] t ↔ _
  generalize recorded chart p.configuration p.history [t] = history at hscope
  have hlandings : chart.landings history a = [a] := (landings_of_plain hplain).1
  have hapart : chart.Apart (chart.landings history a) := by
    rw [hlandings]
    apply apart_singleton wf ha hplain
  have hclimbs : ∀ {c x}, (c, x) ∈ chart.climbs history t a ↔ x = a ∧ c = root := by
    intro c x
    rw [wf.mem_climbs_of_aims ⟨haims, hapart, hscope⟩, hlandings, hplain]
    simp
  obtain ⟨-, hland, hclimb, hnew, hcoherent, hrooted⟩ := wf.addEntered_spec (s := []) haims
    hapart (scope_eq_some.mp hscope).1 (fun x _ k hk => absurd hk List.not_mem_nil)
    (fun x _ _ _ _ y _ _ _ _ hy => absurd hy List.not_mem_nil)
  rw [hlandings] at hland hnew hrooted
  have hland := hland a (List.mem_singleton_self a)
  have hrp := wf.isBelow_of_parent (parent_of_mem_regions wf hr)
  constructor
  · intro hentered
    rcases hnew r hentered with hnil | ⟨x, hx, hrx⟩ | ⟨c, x, q, he, hpasses, hrq⟩
    · cases hnil
    · rw [List.mem_singleton.mp hx] at hrx
      rcases hrx with rfl | hra
      · exact Or.inr (within_refl chart r)
      · exact Or.inl ((wf.isBelow_region_iff hr).mp hra)
    · obtain ⟨rfl, rfl⟩ := hclimbs.mp he
      by_cases haroot : x = root
      · exact Or.inl haroot
      · rcases hrq with rfl | ⟨-, r', hr', -, hrr'⟩
        · exact Or.inr (Or.inr hpasses.1)
        · -- the root itself is not passed
          have hrq := wf.within_isBelow hrr' (wf.isBelow_of_parent (parent_of_mem_regions wf hr'))
          have hqroot := hpasses.2 (wf.isBelow_root ha haroot)
          rw [(wf.isBelow_region_iff hr).mp hrq] at hqroot
          exact absurd hqroot (wf.not_isBelow_of_root root)
  · rintro (rfl | rfl | har)
    · have hsupported := (hcoherent (coherent_nil chart)).supported hland
      obtain ⟨x, hx, rfl | hxr⟩ := hsupported.regions hroot hr
      · exact hx
      · have hrooted : chart.Rooted (fun _ => False) _ _ :=
          hrooted (fun k hk => absurd hk List.not_mem_nil)
        rcases hrooted x hx r hxr with h | hfalse | ⟨w, hw, hwr⟩
        · exact h
        · apply hfalse.elim
        · rw [List.mem_singleton.mp hw] at hwr
          exact absurd hrp (wf.not_isBelow_of_within hwr)
    · exact hland
    · apply hclimb root a r (hclimbs.mpr ⟨rfl, rfl⟩) ⟨har, fun _ => hrp⟩

/-- If all regions are active, a microstep under a transition with at most one plain target
keeps them active exactly if the transition keeps the regions of the root. -/
theorem regions_after_iff {x : Step} (hroot : (chart.kind root).isParallel = true)
    (hregions : ∀ r ∈ chart.regions root, r ∈ x.before.configuration)
    (hx : x.transitions = [t]) (ht : t ∈ chart.transitions t.source)
    (hsingle : t.targets.length ≤ 1) (hplain : ∀ a ∈ t.aims, (chart.kind a).isHistory = false) :
  (∀ r ∈ chart.regions root, r ∈ (x.after chart imps).configuration) ↔
    ∀ a ∈ t.aims, chart.KeepsRegions t a
  := by
  have hclears : x.Clears chart ↔ chart.scope x.before.history t = some root := by
    simp [Step.Clears, hx]
  have hstep : ∀ r ∈ chart.regions root, r ∈ (x.after chart imps).configuration ↔
      ¬ x.Clears chart ∨ x.Enters chart r := by
    intro r hr
    rw [wf.mem_after_iff hr]
    simp [hregions r hr]
  rcases wf.aim_cases ht hsingle with haims | ⟨a, haims, halt⟩
  · have hscope : chart.scope x.before.history t ≠ some root := by
      rw [scope_eq_none.mpr (effectiveTargets_of_aims_nil haims)]
      apply Option.some_ne_none root ∘ Eq.symm
    rw [haims]
    simp only [List.not_mem_nil, false_implies, implies_true, iff_true]
    exact fun r hr => (hstep r hr).mpr (Or.inl (fun h => hscope (hclears.mp h)))
  have hplain := hplain a (by rw [haims]; exact List.mem_singleton_self a)
  have hiff : chart.scope x.before.history t = some root ↔ _ :=
    wf.scope_eq_root_iff hroot haims hplain
  rw [haims, List.forall_mem_singleton, KeepsRegions]
  by_cases hscope : chart.scope x.before.history t = some root
  · have hentered : ∀ r ∈ chart.regions root,
        (r ∈ (x.after chart imps).configuration ↔ a = root ∨ chart.Within a r) := by
      intro r hr
      rw [hstep r hr, Step.Enters, hx, wf.mem_entering_of_plain haims halt hplain hroot hscope hr]
      simp [hclears, hscope]
    constructor
    · intro hall
      right
      by_cases haroot : a = root
      · exact Or.inl haroot
      · exact Or.inr (fun r hr => ((hentered r hr).mp (hall r hr)).resolve_left haroot)
    · rintro (hk | haroot | hall) r hr
      · exact absurd hk (hiff.mp hscope)
      · exact (hentered r hr).mpr (Or.inl haroot)
      · exact (hentered r hr).mpr (Or.inr (hall r hr))
  · constructor
    · intro _
      left
      by_contra hno
      apply hscope (hiff.mpr hno)
    · intro _ r hr
      exact (hstep r hr).mpr (Or.inl (fun h => hscope (hclears.mp h)))

/-! ### Runs -/

/-- What microsteps do to a region of the root. -/
theorem mem_iff_of_settles {event : Event} {p p' : Progress} {xs : List Step}
    (h : Settles chart imps event p xs p') (hr : r ∈ chart.regions root) :
  r ∈ p'.configuration ↔ (r ∈ p.configuration ∨ ∃ z ∈ xs, z.Enters chart r) ∧
    Step.Recover chart r xs
  := by
  induction h with
  | done h => simp [Step.Recover]
  | idle h hnone => simp [Step.Recover]
  | step h hnext hrest ih =>
    rw [ih, wf.mem_after_iff hr]
    apply Step.recover_cons

end WellFormed

end Chart

namespace Machine

open Progress Chart

variable {m : Machine} {s s' : Snapshot} {event : Event} {xs : List Step} {r : Nat}

theorem Moves.mem_iff (wf : m.chart.WellFormed) (h : m.Moves s event xs s')
    (hr : r ∈ m.chart.regions root) :
  r ∈ s'.configuration ↔ (r ∈ s.configuration ∨ ∃ z ∈ xs, z.Enters m.chart r) ∧
    Step.Recover m.chart r xs
  := by
  cases h with
  | rest => simp [Step.Recover, Snapshot.unchanged]
  | react hsettles =>
    rw [snapshotOf, wf.mem_iff_of_settles hsettles hr, wf.mem_after_iff hr]
    apply Step.recover_cons

/-- A region of the root is active in a snapshot exactly if the microsteps behind it
recover the region. -/
theorem Run.mem_iff (wf : m.chart.WellFormed) (h : m.Run xs s)
    (hroot : (m.chart.kind root).isParallel = true) (hr : r ∈ m.chart.regions root) :
  r ∈ s.configuration ↔ Step.Recover m.chart r xs
  := by
  induction h with
  | initial hsettles =>
    have hentry : r ∈ m.entry.configuration :=
      (lawful_entry wf).legal.regions_mem (lawful_entry wf).legal.root_mem hroot hr
    rw [snapshotOf, wf.mem_iff_of_settles hsettles hr]
    simp [hentry]
  | restored h =>
    have hrestored := (lawful_restore wf h).legal.regions_mem (lawful_restore wf h).legal.root_mem
      hroot hr
    simp [hrestored, Step.Recover]
  | step h hmoves ih => rw [hmoves.mem_iff wf hr, ih, Step.recover_append]

/-- Let the root of a compiled chart be parallel and let its transitions have at most one
target.  Each snapshot that the machine reaches has a run, and a region of the root is active
in the snapshot exactly if the run enters it again whenever it has exited the regions.  A
microstep under one transition to a plain node keeps all regions active exactly if the
transition keeps the regions of the root. -/
theorem regions_of_run {document : Document.Machine} (h : ofDocument document = .ok m.chart)
    (hroot : (m.chart.kind root).isParallel = true) (hsingle : m.chart.SingleTargets)
    {s₀ : Snapshot} (hstarts : m.Starts s₀) (hreaches : m.Reaches s₀ s) :
  ∃ xs, m.Run xs s ∧
    (∀ r ∈ m.chart.regions root, r ∈ s.configuration ↔ Step.Recover m.chart r xs) ∧
    ∀ x ∈ xs, ∀ t, x.transitions = [t] →
      (∀ a ∈ t.aims, (m.chart.kind a).isHistory = false) →
      (∀ r ∈ m.chart.regions root, r ∈ x.before.configuration) →
      ((∀ r ∈ m.chart.regions root, r ∈ (x.after m.chart m.implementations).configuration) ↔
        ∀ a ∈ t.aims, m.chart.KeepsRegions t a)
  := by
  have wf := wellFormed_of_ofDocument h
  obtain ⟨xs, hrun⟩ := exists_run hstarts hreaches
  use xs, hrun
  constructor
  · exact fun r hr => hrun.mem_iff wf hroot hr
  · intro x hx t ht hplain hregions
    obtain ⟨event, eventless, heq⟩ := hrun.enabled x hx
    have htransition : t ∈ m.chart.transitions t.source := by
      apply wf.mem_transitions_of_mem_select
      rw [← enabled, ← heq, ht]
      apply List.mem_singleton_self t
    apply wf.regions_after_iff hroot hregions ht htransition (hsingle _ t htransition) hplain

/-- A parallel machine.  In its region `left` the event `NEXT` leads on, and `AGAIN` enters
the region again. -/
def abandoned : Document.Machine where
  root := .node { type := some .parallel }
    [("left", .node { initial := some "a", on := [("AGAIN", [{}])] }
      [("a", .node { on := [("NEXT", [{ targets := ["b"] }])] } []), ("b", .node {} [])]),
     ("right", .node { initial := some "x" } [("x", .node {} []), ("y", .node {} [])])]

theorem regions_of_run_abandoned :
  ∃ chart, ofDocument abandoned = .ok chart ∧
    ∃ s₀ s, (ofChart chart).Starts s₀ ∧ (ofChart chart).Reaches s₀ s ∧
      s.configuration = [0, 1, 3, 4, 5] ∧
      ∃ xs, (ofChart chart).Run xs s ∧ ∀ r ∈ chart.regions root, Step.Recover chart r xs
  := by
  obtain ⟨chart, h, hp⟩ := Outcome.exists_of_any (x := ofDocument abandoned)
    (p := fun chart => ((chart.kind root).isParallel = true ∧ chart.SingleTargets ∧
      chart.regions root = [1, 4]) ∧
      (ofChart chart).initial.toOption.any (fun s₀ =>
        ((ofChart chart).transition s₀ (.bare "NEXT")).toOption.any
          (fun s => s.configuration = [0, 1, 3, 4, 5])))
    (by decide +kernel)
  obtain ⟨⟨hroot, hsingle, hregions⟩, hs₀⟩ := of_decide_eq_true hp
  obtain ⟨s₀, hinitial, hs⟩ := Outcome.exists_of_any hs₀
  obtain ⟨s, hstep, hconfiguration⟩ := Outcome.exists_of_any hs
  have hconfiguration := of_decide_eq_true hconfiguration
  have hreaches : (ofChart chart).Reaches s₀ s := .step .refl hstep
  use chart, h, s₀, s, .initial hinitial, hreaches, hconfiguration
  obtain ⟨xs, hrun, hrecover, -⟩ :=
    regions_of_run (m := ofChart chart) h hroot hsingle (.initial hinitial) hreaches
  use xs, hrun
  intro r hr
  have hactive : ∀ r ∈ [1, 4], r ∈ [0, 1, 3, 4, 5] := by decide
  apply (hrecover r hr).mp
  rw [hconfiguration]
  apply hactive r (hregions ▸ hr)

theorem not_mem_of_regions_abandoned :
  ∃ chart, ofDocument abandoned = .ok chart ∧ (chart.kind root).isParallel = true ∧
    chart.SingleTargets ∧
    ∃ s₀ s, (ofChart chart).initial = .ok s₀ ∧ (ofChart chart).Reaches s₀ s ∧
      ∃ r ∈ chart.regions root, r ∉ s.configuration
  := by
  obtain ⟨chart, h, hp⟩ := Outcome.exists_of_any (x := ofDocument abandoned)
    (p := fun chart => ((chart.kind root).isParallel = true ∧ chart.SingleTargets) ∧
      (ofChart chart).initial.toOption.any (fun s₀ =>
        ((ofChart chart).transition s₀ (.bare "AGAIN")).toOption.any
          (fun s => ∃ r ∈ chart.regions root, r ∉ s.configuration)))
    (by decide +kernel)
  obtain ⟨⟨hroot, hsingle⟩, hs₀⟩ := of_decide_eq_true hp
  obtain ⟨s₀, hinitial, hs⟩ := Outcome.exists_of_any hs₀
  obtain ⟨s, hstep, hlost⟩ := Outcome.exists_of_any hs
  use chart, h, hroot, hsingle, s₀, s, hinitial, .step .refl hstep
  apply of_decide_eq_true hlost

end Machine

end Statechart
