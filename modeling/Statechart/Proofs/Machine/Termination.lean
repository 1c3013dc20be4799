import Statechart.Proofs.Machine.Isolation
import Statechart.Proofs.Resolution.Recursion

/-!
# Termination of the resolution of targets

The targets of a transition are resolved by recursions along history nodes.  Whatever a
machine has recorded, these come to an end at all nodes exactly if no chain of declared
defaults returns to a history node (`terminates_of_run`).
-/

namespace Statechart

namespace Chart

/-- Whether the recursions that expand a node, and that find the nodes to enter for it, come to
an end. -/
def Terminates (chart : Chart) (history : History) (n : Nat) : Prop :=
  (∃ found, Returns (chart.expansion history) [n] [] found) ∧
    ∀ s, ∃ s', Returns (chart.entry history) [.node n] s s'

variable {chart : Chart} {history : History} {n : Nat}

/-- No chain of defaults returns to a node if each history node stands before its default. -/
theorem not_transGen_of_increasing
    (h : ∀ n < chart.nodes.length, ∀ m ∈ (chart.kind n).defaults, n < m) (k : Nat) :
  ¬ Relation.TransGen chart.Defers k k
  := by
  have hlt : ∀ n m, chart.Defers n m → n < m :=
    fun n m hm => h n (lt_length_of_isHistory (follows_of_defers hm).1) m hm
  intro hk
  have hk := Relation.TransGen.mono hlt k k hk
  rw [Relation.transGen_eq_self] at hk
  apply Nat.lt_irrefl k hk

namespace WellFormed

variable (wf : chart.WellFormed)

include wf

theorem terminates_iff :
  chart.Terminates history n ↔ ¬ chart.Endless history n
  := by
  constructor
  · rintro ⟨hexpansion, -⟩
    apply wf.exists_returns_expansion_iff.mp hexpansion
  · intro hends
    use wf.exists_returns_expansion_iff.mpr hends
    exact fun s => wf.exists_returns_entry_iff.mpr hends

/-- Nodes that are recorded add no infinite path, so that the declared defaults decide. -/
theorem forall_terminates_iff :
  (∀ history, chart.RecordsStates history → ∀ n, chart.Terminates history n) ↔
    ∀ k, ¬ Relation.TransGen chart.Defers k k
  := by
  rw [← not_exists, ← wf.exists_endless_iff, not_exists]
  constructor
  · intro hall n
    apply wf.terminates_iff.mp (hall [] _ n)
    rintro h nodes ⟨⟩
  · intro hends history hstates n
    apply wf.terminates_iff.mpr
    apply acc_iff_not_endless.mp
    apply acc_of_recordsStates hstates (acc_iff_not_endless.mpr (hends n))

end WellFormed

end Chart

namespace Machine

open Progress Chart

variable {m : Machine} {s : Snapshot} {xs : List Step}

/-- In a run states are recorded, not history nodes. -/
theorem Run.recordsStates (wf : m.chart.WellFormed) (h : m.Run xs s) :
  (∀ x ∈ xs, m.chart.RecordsStates x.before.history ∧
    m.chart.RecordsStates (x.after m.chart m.implementations).history) ∧
  m.chart.RecordsStates s.history
  := by
  have hkeeps : ∀ x : Step, m.chart.Plain x.before.configuration x.before.history →
      m.chart.Plain (x.after m.chart m.implementations).configuration
        (x.after m.chart m.implementations).history :=
    fun x hx => wf.plain_microstep hx x.transitions
  constructor
  · intro x hx
    have hplain := h.plain wf x hx
    exact ⟨hplain.remembered, (hkeeps x hplain).remembered⟩
  · have hlast := h.forall_after_iff ((lawful_entry wf).plain wf)
      (fun h => (lawful_restore wf h).plain wf)
      (fun x _ _ hx => iff_true_intro (hkeeps x hx))
    apply (hlast.2 (fun x _ => trivial)).remembered

/-- In a compiled chart the graph that leads from each history node to what it stands for has
an infinite path exactly if some chain of declared defaults returns to a history node.  The
recursions that resolve targets terminate at all nodes, whatever states are recorded, exactly
if there is no such chain, and what a run records are states.  In general they terminate
exactly at the nodes from which no infinite path leads, and then they find the targets and
the nodes to enter. -/
theorem terminates_of_run {document : Document.Machine}
    (h : ofDocument document = .ok m.chart) :
  ((∀ n, ¬ m.chart.Endless [] n) ↔ ∀ k, ¬ Relation.TransGen m.chart.Defers k k) ∧
  ((∀ history, m.chart.RecordsStates history → ∀ n, m.chart.Terminates history n) ↔
    ∀ k, ¬ Relation.TransGen m.chart.Defers k k) ∧
  (∀ xs s, m.Run xs s →
    (∀ x ∈ xs, m.chart.RecordsStates x.before.history ∧
      m.chart.RecordsStates (x.after m.chart m.implementations).history) ∧
    m.chart.RecordsStates s.history) ∧
  ∀ history,
    (∀ n, m.chart.Terminates history n ↔ ¬ m.chart.Endless history n) ∧
    (∀ t found, Returns (m.chart.expansion history) t.aims [] found →
      found = m.chart.effectiveTargets history t) ∧
    ∀ n s s', Returns (m.chart.entry history) [.node n] s s' →
      s' = m.chart.enterTarget history m.chart.depthBound n s
  := by
  have wf := wellFormed_of_ofDocument h
  and_intros
  · rw [← not_exists, ← not_exists, wf.exists_endless_iff]
  · apply wf.forall_terminates_iff
  · exact fun xs s hrun => hrun.recordsStates wf
  · intro history
    and_intros
    · exact fun n => wf.terminates_iff
    · exact fun t found hfound => wf.eq_of_returns_expansion hfound
    · exact fun n s s' hs => wf.eq_of_returns_entry hs

/-- A history node whose default is a history node, whose default is a state. -/
def deferring : Document.Machine where
  root := .node { initial := some "a" }
    [("a", .node { on := [("GO", [{ targets := ["h"] }])] } []),
     ("h", .node { type := some .history, target := some "k" } []),
     ("k", .node { type := some .history, target := some "b" } []),
     ("b", .node {} [])]

theorem terminates_of_run_deferring :
  ∃ chart, ofDocument deferring = .ok chart ∧ chart.Defers 2 3 ∧ chart.Defers 3 4 ∧
    ∀ history, chart.RecordsStates history → ∀ n, chart.Terminates history n
  := by
  obtain ⟨chart, h, hp⟩ := Outcome.exists_of_any (x := ofDocument deferring)
    (p := fun chart => 3 ∈ (chart.kind 2).defaults ∧ 4 ∈ (chart.kind 3).defaults ∧
      ∀ n < chart.nodes.length, ∀ m ∈ (chart.kind n).defaults, n < m)
    (by decide +kernel)
  obtain ⟨hfirst, hsecond, hincreasing⟩ := of_decide_eq_true hp
  use chart, h, hfirst, hsecond
  apply (terminates_of_run (m := ofChart chart) h).2.1.mpr
  apply not_transGen_of_increasing hincreasing

/-- A history node that is its own default. -/
def looping : Document.Machine where
  root := .node { initial := some "a" }
    [("a", .node { on := [("GO", [{ targets := ["h"] }])] } []),
     ("h", .node { type := some .history, target := some "h" } [])]

theorem not_terminates_looping :
  ∃ chart, ofDocument looping = .ok chart ∧ chart.Endless [] 2 ∧
    ∃ s t, (ofChart chart).initial = .ok s ∧
      (resume s).enabled chart {} (.bare "GO") false = [t] ∧ t.aims = [2] ∧
      (∀ found, ¬ Returns (chart.expansion s.history) t.aims [] found) ∧
      ∀ s' s'', ¬ Returns (chart.entry s.history) [.node 2] s' s''
  := by
  obtain ⟨chart, h, hp⟩ := Outcome.exists_of_any (x := ofDocument looping)
    (p := fun chart => (chart.kind 2).defaults = [2] ∧
      (ofChart chart).initial.toOption.any (fun s => s.history.isEmpty ∧
        ((resume s).enabled chart {} (.bare "GO") false).map Transition.aims = [[2]]))
    (by decide +kernel)
  obtain ⟨hdefaults, hs⟩ := of_decide_eq_true hp
  obtain ⟨s, hinitial, hs⟩ := Outcome.exists_of_any hs
  obtain ⟨hhistory, hts⟩ := of_decide_eq_true hs
  obtain ⟨t, ht, haims⟩ := List.map_eq_singleton_iff.mp hts
  have hfollows : chart.Follows [] 2 2 := by
    apply follows_of_defers
    rw [Defers, hdefaults]
    apply List.mem_singleton_self
  have hendless : chart.Endless [] 2 := ⟨fun _ => 2, rfl, fun _ => hfollows⟩
  have wf := wellFormed_of_ofDocument h
  rw [List.isEmpty_iff] at hhistory
  use chart, h, hendless, s, t, hinitial, ht, haims
  rw [haims, hhistory]
  constructor
  · exact fun found hfound => wf.exists_returns_expansion_iff.mp ⟨found, hfound⟩ hendless
  · exact fun s' s'' hs'' => wf.exists_returns_entry_iff.mp ⟨s'', hs''⟩ hendless

end Machine

end Statechart
