import Statechart.Configuration
import Statechart.Resolution.Selection
import Statechart.Proofs.Chart.Ancestry

/-!
# Legal configurations

A configuration is legal if its nodes hang together from the root down, an active compound
node has one active child, and an active parallel node has all its regions active.
-/

namespace Statechart

namespace Kind

variable {kind : Kind}

theorem plain_of_isAtomic (h : kind.isAtomic = true) :
  kind.isCompound = false ∧ kind.isParallel = false ∧ kind.isHistory = false
  := by
  cases kind <;> simp [isAtomic, isCompound, isParallel, isHistory] at h ⊢

theorem plain_of_isCompound (h : kind.isCompound = true) :
  kind.isAtomic = false ∧ kind.isParallel = false ∧ kind.isHistory = false
  := by
  cases kind <;> simp [isAtomic, isCompound, isParallel, isHistory] at h ⊢

theorem plain_of_isParallel (h : kind.isParallel = true) :
  kind.isAtomic = false ∧ kind.isCompound = false ∧ kind.isHistory = false
  := by
  cases kind <;> simp [isAtomic, isCompound, isParallel, isHistory] at h ⊢

/-- A kind of active nodes is atomic, compound or parallel. -/
theorem cases_of_not_isHistory (h : kind.isHistory = false) :
  kind.isAtomic = true ∨ kind.isCompound = true ∨ kind.isParallel = true
  := by
  cases kind <;> simp [isAtomic, isCompound, isParallel, isHistory] at h ⊢

end Kind

namespace Chart

/-- What holds of the set of the active nodes of a chart. -/
structure Legal (chart : Chart) (configuration : NodeSet) : Prop where
  increasing : configuration.Pairwise (· < ·)
  lt_length : ∀ {n}, n ∈ configuration → n < chart.nodes.length
  root_mem : root ∈ configuration
  parent_mem : ∀ {n p}, n ∈ configuration → chart.parent? n = some p → p ∈ configuration
  child : ∀ {n}, n ∈ configuration → (chart.kind n).isCompound = true →
    ∃! c, c ∈ configuration ∧ chart.parent? c = some n
  regions_mem : ∀ {n r}, n ∈ configuration → (chart.kind n).isParallel = true →
    r ∈ chart.regions n → r ∈ configuration
  not_history : ∀ {n}, n ∈ configuration → (chart.kind n).isHistory = false

/-- Legality over the active nodes alone. -/
theorem legal_iff {chart : Chart} {configuration : NodeSet} :
  chart.Legal configuration ↔
    configuration.Pairwise (· < ·) ∧ root ∈ configuration ∧
    ∀ n ∈ configuration, n < chart.nodes.length ∧ (∀ p ∈ chart.parent? n, p ∈ configuration) ∧
      ((chart.kind n).isCompound = true → ∃ c ∈ configuration, chart.parent? c = some n ∧
        ∀ c' ∈ configuration, chart.parent? c' = some n → c' = c) ∧
      ((chart.kind n).isParallel = true → ∀ r ∈ chart.regions n, r ∈ configuration) ∧
      (chart.kind n).isHistory = false
  := by
  constructor
  · intro legal
    use legal.increasing, legal.root_mem
    intro n hn
    and_intros
    · apply legal.lt_length hn
    · intro p hp
      apply legal.parent_mem hn hp
    · intro hk
      obtain ⟨c, ⟨hc, hcn⟩, hunique⟩ := legal.child hn hk
      exact ⟨c, hc, hcn, fun c' hc' hcn' => hunique c' ⟨hc', hcn'⟩⟩
    · intro hk r hr
      apply legal.regions_mem hn hk hr
    · apply legal.not_history hn
  · rintro ⟨hincreasing, hroot, hall⟩
    constructor
    case increasing => exact hincreasing
    case lt_length => exact fun hn => (hall _ hn).1
    case root_mem => exact hroot
    case parent_mem => exact fun hn hp => (hall _ hn).2.1 _ hp
    case child =>
      intro n hn hk
      obtain ⟨c, hc, hcn, hunique⟩ := (hall n hn).2.2.1 hk
      exact ⟨c, ⟨hc, hcn⟩, fun c' hc' => hunique c' hc'.1 hc'.2⟩
    case regions_mem => exact fun hn hk hr => (hall _ hn).2.2.2.1 hk _ hr
    case not_history => exact fun hn => (hall _ hn).2.2.2.2

instance (chart : Chart) (configuration : NodeSet) : Decidable (chart.Legal configuration) :=
  decidable_of_iff _ legal_iff.symm

theorem mem_leaves {chart : Chart} {configuration : NodeSet} {n : Nat} :
  n ∈ chart.leaves configuration ↔ n ∈ configuration ∧ (chart.kind n).isAtomic = true
  := List.mem_filter

namespace WellFormed

variable {chart : Chart} {n a x : Nat} (wf : chart.WellFormed)

include wf

/-- A node with a node below it is compound or parallel. -/
theorem inner_of_isBelow (h : chart.isBelow x a = true) :
  (chart.kind a).isCompound = true ∨ (chart.kind a).isParallel = true
  := by
  obtain ⟨c, hc, -⟩ := wf.exists_child h
  apply wf.inner (wf.mem_children.mpr hc)

/-- An atomic node has no node below it. -/
theorem not_isBelow_of_isAtomic (hk : (chart.kind n).isAtomic = true) (x : Nat) :
  ¬ chart.isBelow x n = true
  := by
  intro hx
  rcases wf.inner_of_isBelow hx with hinner | hinner
  · rw [(Kind.plain_of_isCompound hinner).1] at hk
    cases hk
  · rw [(Kind.plain_of_isParallel hinner).1] at hk
    cases hk

end WellFormed

namespace Legal

variable {chart : Chart} {configuration : NodeSet} {n a c c' : Nat}

/-- All nodes that an active node lies within are active. -/
theorem mem_of_within (legal : chart.Legal configuration) (wf : chart.WellFormed)
    (hn : n ∈ configuration) (h : chart.Within n a) :
  a ∈ configuration
  := by
  induction n using Nat.strongRecOn with
  | _ n ih =>
    rcases h with rfl | h
    · exact hn
    · obtain ⟨p, hp, hpa⟩ := wf.isBelow_iff.mp h
      apply ih p (wf.parent_lt hp) (legal.parent_mem hn hp) hpa

/-- Two active children of an active compound node are the same. -/
theorem child_unique (legal : chart.Legal configuration) (hn : n ∈ configuration)
    (hk : (chart.kind n).isCompound = true) (hc : c ∈ configuration)
    (hcn : chart.parent? c = some n) (hc' : c' ∈ configuration)
    (hcn' : chart.parent? c' = some n) :
  c = c'
  := (legal.child hn hk).unique ⟨hc, hcn⟩ ⟨hc', hcn'⟩

end Legal

end Chart

end Statechart
