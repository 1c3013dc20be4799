import Mathlib.Data.List.Pairwise
import Statechart.Proofs.Configuration.Legal

/-!
# Domains

A transition moves inside its domain: it exits the active nodes below it.  The domain is the
source or lies above it (`within_domain`), it is the root or compound, and among the nodes
of this kind that have the source and all targets below them it is the nearest
(`commonAncestor_spec`).
-/

namespace Statechart.Chart

variable {chart : Chart} {history : History} {configuration : NodeSet}
  {t u : Transition} {ts : List Transition} {n a : Nat} {targets : List Nat}

/-- Whether a node may be the domain of an external transition. -/
def IsCeiling (chart : Chart) (n : Nat) : Prop :=
  n = root ∨ (chart.kind n).isCompound = true

/-- The node inside which a transition moves, if it leads anywhere. -/
def scope (chart : Chart) (history : History) (t : Transition) : Option Nat :=
  match chart.effectiveTargets history t with
  | [] => none
  | targets => some (chart.domain t targets)

theorem scope_eq_some {d : Nat} :
  chart.scope history t = some d ↔
    chart.effectiveTargets history t ≠ [] ∧
      chart.domain t (chart.effectiveTargets history t) = d
  := by
  rw [scope]
  cases chart.effectiveTargets history t with
  | nil => simp
  | cons => simp

theorem scope_eq_none :
  chart.scope history t = none ↔ chart.effectiveTargets history t = []
  := by
  rw [scope]
  cases chart.effectiveTargets history t with
  | nil => simp
  | cons => simp

theorem exits_iff :
  chart.exits history t n = true ↔
    ∃ d, chart.scope history t = some d ∧ chart.isBelow n d = true
  := by
  rw [exits]
  simp only [scope]
  cases chart.effectiveTargets history t with
  | nil => simp
  | cons => simp

theorem mem_exited :
  n ∈ chart.exited configuration history ts ↔
    n ∈ configuration ∧ ∃ t ∈ ts, ∃ d, chart.scope history t = some d ∧
      chart.isBelow n d = true
  := by
  rw [exited, List.mem_filter, List.any_eq_true]
  simp only [exits_iff]

theorem mem_exited_singleton :
  n ∈ chart.exited configuration history [t] ↔
    n ∈ configuration ∧ ∃ d, chart.scope history t = some d ∧ chart.isBelow n d = true
  := by
  simp [mem_exited]

theorem conflict_iff :
  chart.conflict configuration history t u = true ↔
    ∃ n, n ∈ chart.exited configuration history [t] ∧
      n ∈ chart.exited configuration history [u]
  := by
  rw [conflict, List.any_eq_true]
  simp

theorem conflict_comm :
  chart.conflict configuration history t u = true ↔
    chart.conflict configuration history u t = true
  := by
  simp only [conflict_iff, and_comm]

/-- Transitions without a conflict exit no node in common. -/
theorem disjoint_of_not_conflict (h : ¬ chart.conflict configuration history t u = true) :
  List.Disjoint (chart.exited configuration history [t])
    (chart.exited configuration history [u])
  := by
  intro n ht hu
  apply h (conflict_iff.mpr ⟨n, ht, hu⟩)

/-- Of several transitions, any two different ones exit no node in common. -/
theorem disjoint_of_pairwise
    (h : ts.Pairwise (fun t u => List.Disjoint (chart.exited configuration history [t])
      (chart.exited configuration history [u])))
    (ht : t ∈ ts) (hu : u ∈ ts) (hne : t ≠ u) :
  List.Disjoint (chart.exited configuration history [t])
    (chart.exited configuration history [u])
  := by
  have : Std.Symm (fun t u => List.Disjoint (chart.exited configuration history [t])
      (chart.exited configuration history [u])) := ⟨fun _ _ h _ hu ht => h ht hu⟩
  exact h.forall ht hu hne

/-! ### Single targets -/

theorem lt_of_mem_transitions (h : t ∈ chart.transitions n) :
  n < chart.nodes.length
  := by
  by_contra hn
  rw [transitions, node?_eq_none hn] at h
  cases h

/-- Whether each transition has at most one target. -/
def SingleTargets (chart : Chart) : Prop :=
  ∀ n t, t ∈ chart.transitions n → t.targets.length ≤ 1

instance (chart : Chart) : Decidable chart.SingleTargets :=
  decidable_of_iff
    (∀ n ∈ List.range chart.nodes.length, ∀ t ∈ chart.transitions n, t.targets.length ≤ 1) (by
      constructor
      · intro h n t ht
        apply h n (List.mem_range.mpr (lt_of_mem_transitions ht)) t ht
      · intro h n _ t ht
        apply h n t ht)

theorem aims_cases (h : t.targets.length ≤ 1) :
  t.aims = [] ∨ ∃ a, t.aims = [a]
  := by
  rw [Transition.aims]
  match ht : t.targets, h with
  | [], _ =>
    cases t.internal with
    | true => simp
    | false => simp
  | [a], _ => simp
  | a :: b :: rest, h => simp at h

theorem mem_aims (ha : a ∈ t.aims) :
  a = t.source ∨ a ∈ t.targets
  := by
  rw [Transition.aims] at ha
  split at ha
  · left
    apply List.mem_singleton.mp ha
  · exact Or.inr ha

/-- A history node at which a transition of a plain node aims is its target. -/
theorem mem_targets_of_isHistory (ha : a ∈ t.aims) (hk : (chart.kind a).isHistory = true)
    (hplain : (chart.kind t.source).isHistory = false) :
  a ∈ t.targets
  := by
  rcases mem_aims ha with rfl | ha
  · rw [hplain] at hk
    cases hk
  · exact ha

theorem effectiveTargets_of_aims_nil (h : t.aims = []) :
  chart.effectiveTargets history t = []
  := by
  rw [effectiveTargets, h]
  rfl

namespace WellFormed

variable (wf : chart.WellFormed)

include wf

/-- A transition with at most one target has at most one aim, which is a node of the chart. -/
theorem aim_cases (ht : t ∈ chart.transitions t.source) (hsingle : t.targets.length ≤ 1) :
  t.aims = [] ∨ ∃ a, t.aims = [a] ∧ a < chart.nodes.length
  := by
  rcases aims_cases hsingle with haims | ⟨a, haims⟩
  · exact Or.inl haims
  · right
    use a, haims
    have ha : a ∈ t.aims := by simp [haims]
    rcases mem_aims ha with rfl | ha
    · apply lt_of_mem_transitions ht
    · apply wf.target_lt ht ha

/-! ### The common ancestor -/

/-- The common ancestor is the nearest node above `n`, the root or compound, with all of
`others` below it; if there is none, it is the root. -/
theorem commonAncestor_spec (n : Nat) (others : List Nat) :
  (chart.isBelow n (chart.commonAncestor n others) = true ∧
    chart.IsCeiling (chart.commonAncestor n others) ∧
    (∀ m ∈ others, chart.isBelow m (chart.commonAncestor n others) = true) ∧
    ∀ b, chart.isBelow n b = true → chart.IsCeiling b →
      chart.isBelow b (chart.commonAncestor n others) = true →
      ∃ m ∈ others, ¬ chart.isBelow m b = true) ∨
  (chart.commonAncestor n others = root ∧
    ∀ b, chart.isBelow n b = true → chart.IsCeiling b →
      ∃ m ∈ others, ¬ chart.isBelow m b = true)
  := by
  have hceiling : ∀ b, b ∈ (chart.ancestors n).filter
      (fun a => a == root || (chart.kind a).isCompound) ↔
      chart.isBelow n b = true ∧ chart.IsCeiling b := by
    intro b
    rw [List.mem_filter, isBelow_iff_mem]
    simp [IsCeiling]
  have hpairwise := (wf.ancestors_pairwise n).filter
    (fun a => a == root || (chart.kind a).isCompound)
  rw [commonAncestor]
  cases hfind : ((chart.ancestors n).filter
      (fun a => a == root || (chart.kind a).isCompound)).find?
      (fun a => others.all (fun m => chart.isBelow m a)) with
  | none =>
    right
    use rfl
    intro b hb hceil
    have hno := List.find?_eq_none.mp hfind b ((hceiling b).mpr ⟨hb, hceil⟩)
    simpa using hno
  | some a =>
    left
    obtain ⟨hall, before, after, heq, hbefore⟩ := List.find?_eq_some_iff_append.mp hfind
    obtain ⟨hna, hceil⟩ := (hceiling a).mp (List.mem_of_find?_eq_some hfind)
    and_intros
    · exact hna
    · exact hceil
    · simpa using hall
    · intro b hb hceil' hba
      have hmem := (hceiling b).mpr ⟨hb, hceil'⟩
      rw [heq] at hmem hpairwise
      rcases List.mem_append.mp hmem with hmem | hmem
      · simpa using hbefore b hmem
      · exfalso
        rcases List.mem_cons.mp hmem with rfl | hmem
        · apply wf.not_isBelow_self _ hba
        · have hab := (List.pairwise_cons.mp (List.pairwise_append.mp hpairwise).2.1).1 b hmem
          apply wf.not_isBelow_self _ (wf.isBelow_trans hba hab)

theorem within_commonAncestor (hn : n < chart.nodes.length) (others : List Nat) :
  chart.Within n (chart.commonAncestor n others)
  := by
  rcases wf.commonAncestor_spec n others with ⟨hbelow, -⟩ | ⟨hroot, -⟩
  · exact Or.inr hbelow
  · rw [hroot]
    apply wf.within_root hn

theorem isCeiling_commonAncestor (n : Nat) (others : List Nat) :
  chart.IsCeiling (chart.commonAncestor n others)
  := by
  rcases wf.commonAncestor_spec n others with ⟨-, hceil, -⟩ | ⟨hroot, -⟩
  · exact hceil
  · exact Or.inl hroot

/-! ### The domain -/

omit wf in
variable (chart) in
/-- The domain is the source of an internal transition that stays below its compound
source, and the common ancestor of the source and the targets else. -/
theorem domain_cases (t : Transition) (targets : List Nat) :
  (chart.domain t targets = t.source ∧ t.internal = true ∧
    (chart.kind t.source).isCompound = true ∧
    ∀ n ∈ targets, chart.isBelow n t.source = true) ∨
  (chart.domain t targets = chart.commonAncestor t.source targets ∧
    ¬ (t.internal = true ∧ (chart.kind t.source).isCompound = true ∧
      ∀ n ∈ targets, chart.isBelow n t.source = true))
  := by
  rw [domain]
  split
  · next h =>
    left
    simp only [Bool.and_eq_true, List.all_eq_true] at h
    exact ⟨rfl, h.1.1, h.1.2, h.2⟩
  · next h =>
    right
    simp only [Bool.and_eq_true, List.all_eq_true] at h
    constructor
    · rfl
    · rintro ⟨hi, hk, hall⟩
      apply h ⟨⟨hi, hk⟩, hall⟩

theorem within_domain (ht : t.source < chart.nodes.length) (targets : List Nat) :
  chart.Within t.source (chart.domain t targets)
  := by
  rcases domain_cases chart t targets with ⟨h, -⟩ | ⟨h, -⟩
  · rw [h]
    apply within_refl chart t.source
  · rw [h]
    apply wf.within_commonAncestor ht targets

/-- The targets lie below the domain, unless it is the root. -/
theorem isBelow_domain {x : Nat} (hx : x ∈ targets) (hne : chart.domain t targets ≠ root) :
  chart.isBelow x (chart.domain t targets) = true
  := by
  rcases domain_cases chart t targets with ⟨h, -, -, hall⟩ | ⟨h, -⟩
  · rw [h]
    apply hall x hx
  · rw [h] at hne ⊢
    rcases wf.commonAncestor_spec t.source targets with ⟨-, -, hall, -⟩ | ⟨hroot, -⟩
    · apply hall x hx
    · exact absurd hroot hne

theorem isCeiling_domain (t : Transition) (targets : List Nat) :
  chart.IsCeiling (chart.domain t targets)
  := by
  rcases domain_cases chart t targets with ⟨h, -, hk, -⟩ | ⟨h, -⟩
  · rw [h]
    exact Or.inr hk
  · rw [h]
    apply wf.isCeiling_commonAncestor t.source targets

theorem within_scope (ht : t.source < chart.nodes.length) {d : Nat}
    (h : chart.scope history t = some d) :
  chart.Within t.source d
  := by
  rw [← (scope_eq_some.mp h).2]
  apply wf.within_domain ht _

theorem isCeiling_scope {d : Nat} (h : chart.scope history t = some d) :
  chart.IsCeiling d
  := by
  rw [← (scope_eq_some.mp h).2]
  apply wf.isCeiling_domain t _

end WellFormed

end Statechart.Chart
