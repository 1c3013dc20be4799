import Statechart.Proofs.Machine.Legality
import Statechart.Proofs.Resolution.Isolation

/-!
# Isolation of regions in runs

A microstep of a run that moves below one region of a parallel node leaves the other regions
alone, unless it restores a history node that reaches out of the region
(`isolated_of_run`).
-/

namespace Statechart.Machine

open Progress Chart

variable {m : Machine} {s : Snapshot} {xs : List Step}

theorem Lawful.plain (wf : m.chart.WellFormed) {configuration : NodeSet} {history : History}
    (h : Lawful m.chart configuration history) :
  m.chart.Plain configuration history
  := by
  have hrecorded : ∀ k nodes, history.lookup k = some nodes → ∀ x ∈ nodes,
      (m.chart.kind x).isHistory = false ∧ x < m.chart.nodes.length := by
    intro k nodes hlookup x hx
    obtain ⟨configuration, depth, -, p, legal, -, -, -, rfl⟩ := h.remembers k nodes hlookup
    have hactive := (wf.mem_recording hx).1
    exact ⟨legal.not_history hactive, legal.lt_length hactive⟩
  constructor
  case active => exact fun n hn => h.legal.not_history hn
  case remembered => exact fun k nodes hlookup x hx => (hrecorded k nodes hlookup x hx).1
  case lt_length => exact fun k nodes hlookup x hx => (hrecorded k nodes hlookup x hx).2

/-- In a run no history node is ever active or recorded. -/
theorem Run.plain (wf : m.chart.WellFormed) (h : m.Run xs s) :
  ∀ x ∈ xs, m.chart.Plain x.before.configuration x.before.history
  := by
  apply h.forall_before ((lawful_entry wf).plain wf) (fun h => (lawful_restore wf h).plain wf)
    (fun x _ h => wf.plain_microstep h x.transitions)

/-- Let the transitions of a compiled chart have at most one target, and let a microstep of a
run take one transition whose source and targets lie below a compound node `r`, such as a
region of a parallel node.  The microstep exits nodes below `r` alone.  It enters nodes below
`r` alone exactly if no target is left when the histories are recorded, or each history node
that the aim leads to has its parent within `r` and stands for nodes below its parent.  Then
all other nodes stay what they were. -/
theorem isolated_of_run {document : Document.Machine} (h : ofDocument document = .ok m.chart)
    (hsingle : m.chart.SingleTargets) (hrun : m.Run xs s) {x : Step} (hx : x ∈ xs)
    {t : Transition} (ht : x.transitions = [t]) {r : Nat}
    (hr : (m.chart.kind r).isCompound = true) (hsource : m.chart.isBelow t.source r = true)
    (htargets : ∀ y ∈ m.chart.effectiveTargets x.before.history t,
      m.chart.isBelow y r = true) :
  (∀ n ∈ x.before.exiting m.chart [t], m.chart.isBelow n r = true) ∧
  ((∀ n ∈ x.before.entering m.chart [t], m.chart.isBelow n r = true) ↔
    m.chart.effectiveTargets
      (recorded m.chart x.before.configuration x.before.history [t]) t = [] ∨
    ∀ a ∈ t.aims, ∀ h,
      m.chart.Leads (recorded m.chart x.before.configuration x.before.history [t]) a h →
      (m.chart.kind h).isHistory = true →
      m.chart.Encloses (recorded m.chart x.before.configuration x.before.history [t]) r h) ∧
  ((∀ n ∈ x.before.entering m.chart [t], m.chart.isBelow n r = true) →
    ∀ n, ¬ m.chart.isBelow n r = true →
      (n ∈ (x.after m.chart m.implementations).configuration ↔ n ∈ x.before.configuration))
  := by
  have wf := wellFormed_of_ofDocument h
  have hplain := hrun.plain wf x hx
  have hexiting : ∀ n ∈ x.before.exiting m.chart [t], m.chart.isBelow n r = true :=
    fun n hn => wf.isBelow_of_mem_exiting hr hsource htargets hn
  obtain ⟨event, eventless, heq⟩ := hrun.enabled x hx
  have htransition : t ∈ m.chart.transitions t.source := by
    apply wf.mem_transitions_of_mem_select
    rw [← enabled, ← heq, ht]
    apply List.mem_singleton_self t
  and_intros
  · exact hexiting
  · apply wf.isBelow_entering_iff hplain hr hsource htargets (hsingle _ t htransition)
  · intro hentering n hn
    rw [Step.after, ht]
    apply mem_configuration_of_not_isBelow hexiting hentering hn

/-- A parallel state whose region `left` has a history.  In the region the event `BACK` leads
to the history, and `OUT` to a history of the root, whose default lies in the region. -/
def straying : Document.Machine where
  root := .node { initial := some "p" }
    [("p", .node { type := some .parallel }
      [("left", .node { initial := some "a" }
        [("a", .node { on := [("BACK", [{ targets := ["#machine.p.left.k"] }]),
          ("OUT", [{ targets := ["#machine.h"] }])] } []),
         ("b", .node {} []),
         ("k", .node { type := some .history, target := some "#machine.p.left.b" } [])]),
       ("right", .node { initial := some "x", on := [("NEXT", [{ targets := [".y"] }])] }
        [("x", .node {} []), ("y", .node {} [])])]),
     ("h", .node { type := some .history, target := some "#machine.p.left.b" } [])]

theorem isolated_of_run_straying :
  ∃ chart, ofDocument straying = .ok chart ∧
    ∃ xs s x t, (ofChart chart).Run xs s ∧ x ∈ xs ∧ x.transitions = [t] ∧
      x.before.configuration = [0, 1, 2, 3, 6, 7] ∧
      (x.after chart {}).configuration = [0, 1, 2, 4, 6, 7] ∧
      ∀ n, ¬ chart.isBelow n 2 = true →
        (n ∈ (x.after chart {}).configuration ↔ n ∈ x.before.configuration)
  := by
  obtain ⟨chart, h, hp⟩ := Outcome.exists_of_any (x := ofDocument straying)
    (p := fun chart => (chart.SingleTargets ∧ (chart.kind 2).isCompound = true) ∧
      (ofChart chart).initial.toOption.any (fun s₀ =>
        let p := resume s₀
        let ts := p.enabled chart {} (.bare "BACK") false
        (s₀.done = false ∧ s₀.configuration = [0, 1, 2, 3, 6, 7] ∧ ts.length = 1) ∧
        (∀ t ∈ ts, chart.isBelow t.source 2 = true ∧
          (∀ y ∈ chart.effectiveTargets p.history t, chart.isBelow y 2 = true) ∧
          (∀ n ∈ p.entering chart [t], chart.isBelow n 2 = true) ∧
          (microstep chart {} [t] (.bare "BACK") p).configuration = [0, 1, 2, 4, 6, 7]) ∧
        ((ofChart chart).transition s₀ (.bare "BACK")).toOption.any (fun _ => true)))
    (by decide +kernel)
  obtain ⟨⟨hsingle, hr⟩, hs₀⟩ := of_decide_eq_true hp
  obtain ⟨s₀, hinitial, hs⟩ := Outcome.exists_of_any hs₀
  obtain ⟨⟨hdone, hbefore, hlength⟩, hall, hs⟩ := of_decide_eq_true hs
  obtain ⟨s, hstep, -⟩ := Outcome.exists_of_any hs
  obtain ⟨t, ht⟩ := List.length_eq_one_iff.mp hlength
  rw [ht, List.forall_mem_singleton] at hall
  obtain ⟨hsource, htargets, hentering, hafter⟩ := hall
  obtain ⟨xs, hrun⟩ := exists_run (.initial hinitial) .refl
  have hne : (resume s₀).enabled chart {} (.bare "BACK") false ≠ [] := by
    rw [ht]
    apply List.cons_ne_nil t []
  obtain ⟨ys, hmoves⟩ := exists_moves_react hstep hdone hne
  change (ofChart chart).Moves s₀ _ (⟨resume s₀, enabled chart {} _ _ _, .bare "BACK"⟩ :: ys) s
    at hmoves
  rw [ht] at hmoves
  have hrun' := Run.step hrun hmoves
  have hx : (⟨resume s₀, [t], .bare "BACK"⟩ : Step) ∈ xs ++ ⟨resume s₀, [t], .bare "BACK"⟩ :: ys :=
    List.mem_append_right xs List.mem_cons_self
  have hisolated := isolated_of_run (m := ofChart chart) h hsingle hrun' hx rfl hr hsource
    htargets
  exact ⟨chart, h, _, s, _, t, hrun', hx, rfl, hbefore, hafter, hisolated.2.2 hentering⟩

theorem not_isolated_straying :
  ∃ chart, ofDocument straying = .ok chart ∧ (chart.kind root).isCompound = true ∧
    chart.SingleTargets ∧
    ∃ s₀ s s', (ofChart chart).initial = .ok s₀ ∧ (ofChart chart).Reaches s₀ s ∧
      chart.Legal s.configuration ∧ 1 ∈ s.configuration ∧
      (chart.kind 1).isParallel = true ∧ 2 ∈ chart.regions 1 ∧
      (chart.kind 2).isCompound = true ∧
      (∃ t, (resume s).enabled chart {} (.bare "OUT") false = [t] ∧
        chart.isBelow t.source 2 = true ∧
        (∀ y ∈ chart.effectiveTargets s.history t, chart.isBelow y 2 = true) ∧
        ∃ n ∈ (resume s).entering chart [t], ¬ chart.isBelow n 2 = true) ∧
      (ofChart chart).transition s (.bare "OUT") = .ok s' ∧
      ∃ n, ¬ chart.isBelow n 2 = true ∧ n ∉ s.configuration ∧ n ∈ s'.configuration
  := by
  obtain ⟨chart, h, hp⟩ := Outcome.exists_of_any (x := ofDocument straying)
    (p := fun chart => ((chart.kind root).isCompound = true ∧ chart.SingleTargets) ∧
      (ofChart chart).initial.toOption.any (fun s₀ =>
        ((ofChart chart).transition s₀ (.bare "NEXT")).toOption.any (fun s =>
          let ts := (resume s).enabled chart {} (.bare "OUT") false
          (chart.Legal s.configuration ∧ 1 ∈ s.configuration ∧
            (chart.kind 1).isParallel = true ∧ 2 ∈ chart.regions 1 ∧
            (chart.kind 2).isCompound = true) ∧
          ts.length = 1 ∧
          (∀ t ∈ ts, chart.isBelow t.source 2 = true ∧
            (∀ y ∈ chart.effectiveTargets s.history t, chart.isBelow y 2 = true) ∧
            ∃ n ∈ (resume s).entering chart [t], ¬ chart.isBelow n 2 = true) ∧
          ((ofChart chart).transition s (.bare "OUT")).toOption.any (fun s' =>
            ¬ chart.isBelow 7 2 = true ∧ 7 ∉ s.configuration ∧ 7 ∈ s'.configuration))))
    (by decide +kernel)
  obtain ⟨⟨hroot, hsingle⟩, hs₀⟩ := of_decide_eq_true hp
  obtain ⟨s₀, hinitial, hs⟩ := Outcome.exists_of_any hs₀
  obtain ⟨s, hstep, hs⟩ := Outcome.exists_of_any hs
  obtain ⟨⟨legal, hp, hk, hr, hrk⟩, hlength, hall, hs'⟩ := of_decide_eq_true hs
  obtain ⟨s', hstep', hstrays⟩ := Outcome.exists_of_any hs'
  obtain ⟨t, ht⟩ := List.length_eq_one_iff.mp hlength
  rw [ht, List.forall_mem_singleton] at hall
  use chart, h, hroot, hsingle, s₀, s, s', hinitial, .step .refl hstep, legal, hp, hk, hr, hrk,
    ⟨t, ht, hall⟩, hstep', 7
  apply of_decide_eq_true hstrays

end Statechart.Machine
