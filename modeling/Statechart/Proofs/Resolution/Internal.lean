import Mathlib.Data.List.Nodup
import Statechart.Proofs.Resolution.Actions
import Statechart.Proofs.Resolution.Reentry
import Statechart.Proofs.Resolution.Targets

/-!
# Internal and external transitions

A transition that leads from a node inward, to the node itself or to nodes below it, exits and
enters its source once (`count_source`), unless it is internal and has no target, or is internal
and leads from a compound source to nodes below it alone (`Transition.Stays`).  In the former
case it does nothing to the configuration, and in the latter it exits the active nodes below the
source and leaves the source and what lies above it alone.
-/

namespace Statechart

/-- Whether a transition stays inside its source: it is internal, and its source is compound
and has all targets below it. -/
def Transition.Stays (chart : Chart) (t : Transition) : Prop :=
  t.internal = true ∧ (chart.kind t.source).isCompound = true ∧
    ∀ a ∈ t.targets, chart.isBelow a t.source = true

theorem Transition.aims_eq_nil_iff {t : Transition} :
  t.aims = [] ↔ t.internal = true ∧ t.targets = []
  := by
  rw [Transition.aims]
  cases t.internal with
  | true => simp
  | false => cases t.targets <;> simp

/-- An internal transition aims at its targets alone. -/
theorem Transition.aims_of_internal {t : Transition} (h : t.internal = true) :
  t.aims = t.targets
  := by
  rw [Transition.aims, h, Bool.not_true, Bool.and_false]
  rfl

namespace Chart

open Progress

variable {chart : Chart} {p : Progress} {history : History} {t : Transition} {s : NodeSet}
  {a d k : Nat} {nodes : List Nat}

namespace WellFormed

variable (wf : chart.WellFormed)

include wf

/-- What is gathered for nodes below `d` lies below `d`. -/
theorem isBelow_of_mem_gather (hnodes : ∀ x ∈ nodes, chart.isBelow x d = true)
    (hk : k ∈ chart.gather d nodes s) :
  k ∈ s ∨ chart.isBelow k d = true
  := by
  obtain ⟨-, -, hnew, -, -⟩ := wf.climb_spec (nodes.eraseDups.map (fun x => (d, x)))
    (chart.land nodes s)
  rcases hnew k hk with hk | ⟨e, x, q, he, hpasses, hkq⟩
  · rcases wf.mem_land_cases hk with hks | ⟨x, hx, hkx⟩
    · exact Or.inl hks
    · exact Or.inr (wf.within_isBelow hkx (hnodes x hx))
  · obtain ⟨rfl, hx⟩ := mem_climbs_gather.mp he
    have hqd := hpasses.2 (hnodes x hx)
    right
    rcases hkq with rfl | ⟨-, r, hr, -, hkr⟩
    · exact hqd
    · have hrq := wf.isBelow_of_parent (parent_of_mem_regions wf hr)
      apply wf.isBelow_trans (wf.within_isBelow hkr hrq) hqd

/-- A transition that stays inside its source moves inside the source. -/
theorem scope_of_stays (haims : ∀ a ∈ t.aims, (chart.kind a).isHistory = false)
    (hne : t.targets ≠ []) (hstays : t.Stays chart) :
  chart.scope history t = some t.source
  := by
  have htargets := t.aims_of_internal hstays.1
  apply scope_eq_some.mpr
  rw [wf.effectiveTargets_of_plain_aims haims, htargets]
  have hbelow : ∀ a ∈ t.targets.eraseDups, chart.isBelow a t.source = true :=
    fun a ha => hstays.2.2 a (List.mem_eraseDups.mp ha)
  constructor
  · obtain ⟨a, ha⟩ := List.exists_mem_of_ne_nil _ hne
    apply List.ne_nil_of_mem (List.mem_eraseDups.mpr ha)
  · rcases domain_cases chart t t.targets.eraseDups with ⟨hdomain, -⟩ | ⟨-, hnot⟩
    · exact hdomain
    · exact absurd ⟨hstays.1, hstays.2.1, hbelow⟩ hnot

/-- A transition that aims somewhere, from a node other than the root, and does not stay inside
its source moves inside a node above the source. -/
theorem scope_of_not_stays (ht : t ∈ chart.transitions t.source)
    (haims : ∀ a ∈ t.aims, (chart.kind a).isHistory = false) (hne : t.aims ≠ [])
    (hroot : t.source ≠ root) (hnot : ¬ t.Stays chart) :
  ∃ d, (∀ history, chart.scope history t = some d) ∧ chart.isBelow t.source d = true
  := by
  use chart.domain t t.aims.eraseDups
  constructor
  · intro history
    apply scope_eq_some.mpr
    rw [wf.effectiveTargets_of_plain_aims haims]
    obtain ⟨a, ha⟩ := List.exists_mem_of_ne_nil _ hne
    exact ⟨List.ne_nil_of_mem (List.mem_eraseDups.mpr ha), rfl⟩
  · rcases domain_cases chart t t.aims.eraseDups with ⟨-, hinternal, hk, hall⟩ | ⟨hdomain, -⟩
    · rw [t.aims_of_internal hinternal] at hall
      exact absurd ⟨hinternal, hk, fun a ha => hall a (List.mem_eraseDups.mpr ha)⟩ hnot
    · rw [hdomain]
      rcases wf.commonAncestor_spec t.source t.aims.eraseDups with ⟨hbelow, -⟩ | ⟨heq, -⟩
      · exact hbelow
      · rw [heq]
        apply wf.isBelow_root (lt_of_mem_transitions ht) hroot

/-- A transition that stays inside its source exits the active nodes below the source, and
enters no others. -/
theorem mem_exiting_of_stays (haims : ∀ a ∈ t.aims, (chart.kind a).isHistory = false)
    (hne : t.targets ≠ []) (hstays : t.Stays chart) :
  (∀ n, n ∈ p.exiting chart [t] ↔ n ∈ p.configuration ∧ chart.isBelow n t.source = true) ∧
    ∀ n ∈ p.entering chart [t], chart.isBelow n t.source = true
  := by
  constructor
  · intro n
    rw [exiting, mem_exited_singleton, wf.scope_of_stays haims hne hstays]
    simp
  · intro n hn
    change n ∈ addEntered chart _ [] t at hn
    rw [wf.addEntered_of_plain_aims haims (wf.scope_of_stays haims hne hstays),
      t.aims_of_internal hstays.1] at hn
    exact (wf.isBelow_of_mem_gather hstays.2.2 hn).resolve_left List.not_mem_nil

/-- A transition that leads from its source inward, and does not stay inside it, exits and
enters its source. -/
theorem mem_source (hactive : t.source ∈ p.configuration) (hroot : t.source ≠ root)
    (ht : t ∈ chart.transitions t.source)
    (haims : ∀ a ∈ t.aims, (chart.kind a).isHistory = false)
    (hwithin : ∀ a ∈ t.aims, chart.Within a t.source) (hne : t.aims ≠ [])
    (hnot : ¬ t.Stays chart) :
  t.source ∈ p.exiting chart [t] ∧ t.source ∈ p.entering chart [t]
  := by
  obtain ⟨d, hscope, hd⟩ := wf.scope_of_not_stays ht haims hne hroot hnot
  constructor
  · exact mem_exited_singleton.mpr ⟨hactive, d, hscope _, hd⟩
  · change t.source ∈ addEntered chart _ [] t
    obtain ⟨a, ha⟩ := List.exists_mem_of_ne_nil _ hne
    rcases hwithin a ha with heq | hbelow
    · rw [wf.addEntered_of_plain_aims haims (hscope _), ← heq]
      apply (wf.extends_gather (wf.inside_aims haims ht (hscope p.history))).2 a ha
    · apply wf.mem_addEntered_of_passes (x := a)
      · rw [wf.effectiveTargets_of_plain_aims haims, List.mem_eraseDups]
        exact ha
      · rw [(scope_eq_some.mp (hscope _)).2]
        exact ⟨hbelow, fun _ => hd⟩

end WellFormed

/-- Let a microstep of a compiled chart take one transition from a legal configuration, whose
source is active and not the root and whose targets are no history nodes and lie within the
source.  The nodes that it exits are no longer active, those that it enters are, and it collects
the exit actions of the former, the actions of the transition and the entry actions of the latter.
If the transition is internal and has no target, no node is exited or entered.  If it stays inside
its source and has a target, the source and what lies above it are neither exited nor entered, and
all active nodes below the source are exited.  In all other cases the source is exited and entered
exactly once. -/
theorem count_source {document : Document.Machine} (h : ofDocument document = .ok chart)
    (legal : chart.Legal p.configuration) (ht : t ∈ chart.transitions t.source)
    (hactive : t.source ∈ p.configuration) (hroot : t.source ≠ root)
    (htargets : ∀ a ∈ t.targets, (chart.kind a).isHistory = false ∧ chart.Within a t.source) :
  (∀ imps trigger,
    (∀ n, n ∈ (p.microstep chart imps [t] trigger).configuration ↔
      n ∈ p.configuration ∧ n ∉ p.exiting chart [t] ∨ n ∈ p.entering chart [t]) ∧
    Collection.Same (p.microstep chart imps [t] trigger).collected
      (p.collected.collect chart imps trigger
        ((p.exiting chart [t]).reverse.flatMap chart.exitActions ++ t.actions ++
          (p.entering chart [t]).flatMap chart.entryActions))) ∧
  (t.internal = true → t.targets = [] →
    p.exiting chart [t] = [] ∧ p.entering chart [t] = []) ∧
  (t.targets ≠ [] → t.Stays chart →
    (∀ a, chart.Within t.source a → a ∉ p.exiting chart [t] ∧ a ∉ p.entering chart [t]) ∧
    ∀ n ∈ p.configuration, chart.isBelow n t.source = true → n ∈ p.exiting chart [t]) ∧
  (¬ (t.internal = true ∧ t.targets = []) → ¬ t.Stays chart →
    (p.exiting chart [t]).count t.source = 1 ∧ (p.entering chart [t]).count t.source = 1)
  := by
  have wf := wellFormed_of_ofDocument h
  have haims : ∀ a ∈ t.aims, (chart.kind a).isHistory = false ∧ chart.Within a t.source := by
    intro a ha
    rcases mem_aims ha with rfl | ha
    · exact ⟨legal.not_history hactive, within_refl chart t.source⟩
    · exact htargets a ha
  and_intros
  · intro imps trigger
    constructor
    · exact fun n => mem_configuration_microstep
    · rw [← List.flatMap_singleton Transition.actions t, ← performed]
      apply collected_microstep
  · intro hinternal hnil
    have hscope : ∀ history, chart.scope history t = none :=
      fun _ => scope_eq_none.mpr (effectiveTargets_of_aims_nil
        (Transition.aims_eq_nil_iff.mpr ⟨hinternal, hnil⟩))
    constructor
    · apply List.eq_nil_iff_forall_not_mem.mpr
      intro n hn
      obtain ⟨-, d, hd, -⟩ := mem_exited_singleton.mp hn
      rw [hscope] at hd
      cases hd
    · exact addEntered_of_scope (hscope _)
  · intro hne hstays
    obtain ⟨hexiting, hentering⟩ :=
      wf.mem_exiting_of_stays (p := p) (fun a ha => (haims a ha).1) hne hstays
    constructor
    · intro a ha
      have hnot : ¬ chart.isBelow a t.source = true :=
        fun hbelow => wf.not_isBelow_self _ (wf.within_isBelow ha hbelow)
      exact ⟨fun hn => hnot ((hexiting a).mp hn).2, fun hn => hnot (hentering a hn)⟩
    · exact fun n hn hbelow => (hexiting n).mpr ⟨hn, hbelow⟩
  · intro hne hnot
    obtain ⟨hexited, hentered⟩ := wf.mem_source hactive hroot ht (fun a ha => (haims a ha).1)
      (fun a ha => (haims a ha).2) (mt Transition.aims_eq_nil_iff.mp hne) hnot
    constructor
    · apply List.count_eq_one_of_mem _ hexited
      exact (exiting_increasing legal [t]).imp Nat.ne_of_lt
    · apply List.count_eq_one_of_mem _ hentered
      exact (entering_increasing p [t]).imp Nat.ne_of_lt

/-- A state `s` in its child `a` with three transitions: an internal one without a target for
the event `NOTE`, an internal one to the child `b` for `NEXT`, and an external one to `b` for
`AGAIN`. -/
def noting : Document.Machine where
  root := .node { initial := some "s" }
    [("s", .node { initial := some "a", on :=
        [("NOTE", [{ internal := true }]), ("NEXT", [{ targets := [".b"], internal := true }]),
         ("AGAIN", [{ targets := [".b"] }])] }
      [("a", .node {} []), ("b", .node {} [])])]

theorem count_source_noting :
  ∃ chart t u v, ofDocument noting = .ok chart ∧ chart.transitions 1 = [t, u, v] ∧
    let p : Progress := { configuration := [0, 1, 2], history := [], collected := ⟨.null, [], []⟩ }
    (p.exiting chart [t] = [] ∧ p.entering chart [t] = []) ∧
    (1 ∉ p.exiting chart [u] ∧ 1 ∉ p.entering chart [u] ∧ 2 ∈ p.exiting chart [u]) ∧
    1 ∈ (p.microstep chart {} [u] (.bare "NEXT")).configuration ∧
    (p.exiting chart [v]).count 1 = 1 ∧ (p.entering chart [v]).count 1 = 1
  := by
  obtain ⟨chart, h, hp⟩ := Outcome.exists_of_any (x := ofDocument noting)
    (p := fun chart => chart.Legal [0, 1, 2] ∧ (chart.kind 1).isCompound = true ∧
      (chart.kind 3).isHistory = false ∧ chart.isBelow 2 1 = true ∧ chart.isBelow 3 1 = true ∧
      (chart.transitions 1).map Transition.source = [1, 1, 1] ∧
      (chart.transitions 1).map Transition.internal = [true, true, false] ∧
      (chart.transitions 1).map Transition.targets = [[], [3], [3]])
    (by decide +kernel)
  obtain ⟨legal, hkind, hplain, hactive, hbelow, hsources, hinternal, htargets⟩ :=
    of_decide_eq_true hp
  obtain ⟨t, u, v, ht⟩ : ∃ t u v, chart.transitions 1 = [t, u, v] :=
    List.length_eq_three.mp (by simpa using congrArg List.length hsources)
  rw [ht] at hsources hinternal htargets
  simp only [List.map_cons, List.map_nil, List.cons.injEq, and_true] at hsources hinternal htargets
  obtain ⟨hst, hsu, hsv⟩ := hsources
  obtain ⟨hit, hiu, hiv⟩ := hinternal
  obtain ⟨htt, htu, htv⟩ := htargets
  let p : Progress := { configuration := [0, 1, 2], history := [], collected := ⟨.null, [], []⟩ }
  have hmem : ∀ w ∈ [t, u, v], w.source = 1 → w ∈ chart.transitions w.source := by
    intro w hw hsource
    rw [hsource, ht]
    exact hw
  have hwithin : ∀ a ∈ [3], (chart.kind a).isHistory = false ∧ chart.Within a 1 := by
    simp [hplain, Within, hbelow]
  have hstays : u.Stays chart := by simp [Transition.Stays, hiu, hsu, hkind, htu, hbelow]
  have hnot : ¬ v.Stays chart := by simp [Transition.Stays, hiv]
  obtain ⟨-, hfirst, -, -⟩ := count_source (p := p) h legal (hmem t (by simp) hst)
    (by simp [hst, p]) (by simp [hst, root]) (by simp [htt])
  obtain ⟨hsteps, -, hsecond, -⟩ := count_source (p := p) h legal (hmem u (by simp) hsu)
    (by simp [hsu, p]) (by simp [hsu, root]) (by rw [hsu, htu]; exact hwithin)
  obtain ⟨-, -, -, hthird⟩ := count_source (p := p) h legal (hmem v (by simp) hsv)
    (by simp [hsv, p]) (by simp [hsv, root]) (by rw [hsv, htv]; exact hwithin)
  obtain ⟨hsource, hchild⟩ := hsecond (by simp [htu]) hstays
  rw [hsu] at hsource hchild
  rw [hsv] at hthird
  obtain ⟨hexiting, hentering⟩ := hsource 1 (within_refl chart 1)
  obtain ⟨hconfiguration, -⟩ := hsteps {} (.bare "NEXT")
  exact ⟨chart, t, u, v, h, ht, hfirst hit htt,
    ⟨hexiting, hentering, hchild 2 (by simp [p]) hactive⟩,
    (hconfiguration 1).mpr (Or.inl ⟨by simp [p], hexiting⟩), hthird (by simp [hiv]) hnot⟩

end Chart

end Statechart
