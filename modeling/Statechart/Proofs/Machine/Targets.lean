import Statechart.Proofs.Machine.Legality
import Statechart.Proofs.Resolution.Targets

/-!
# Lists of targets in runs

Without history nodes the snapshots of a machine have no compound node with two active
children, as long as each transition that is taken leads to nodes that may be active together
(`split_iff_of_run`).
-/

namespace Statechart.Machine

open Progress Chart

variable {m : Machine}

/-- A microstep from a legal configuration ends in a legal one exactly if it does not split
it, and exactly if the targets of each of its transitions may be active together. -/
theorem legal_after_iff (wf : m.chart.WellFormed)
    (hroot : (m.chart.kind root).isCompound = true) (hplain : m.chart.Historyless) {x : Step}
    (henabled : x.Enabled m.chart m.implementations)
    (legal : m.chart.Legal x.before.configuration) :
  (m.chart.Legal (x.after m.chart m.implementations).configuration ↔
    ∀ t ∈ x.transitions, m.chart.Compatible t.aims) ∧
  (m.chart.Legal (x.after m.chart m.implementations).configuration ↔
    ¬ m.chart.Split (x.after m.chart m.implementations).configuration)
  := by
  obtain ⟨hsources, hdisjoint⟩ := selected_of_enabled wf henabled legal
  have hcompatible : ¬ m.chart.Split (x.after m.chart m.implementations).configuration →
      ∀ t ∈ x.transitions, m.chart.Compatible t.aims := by
    intro hwhole t ht
    by_contra hnot
    apply hwhole (wf.split_of_not_compatible hroot hplain legal hsources hdisjoint ht hnot)
  have hlegal : (∀ t ∈ x.transitions, m.chart.Compatible t.aims) →
      m.chart.Legal (x.after m.chart m.implementations).configuration :=
    wf.legal_of_compatible hroot hplain legal hsources hdisjoint
  constructor
  · exact ⟨fun hafter => hcompatible hafter.not_split, hlegal⟩
  · exact ⟨fun hafter => hafter.not_split, fun hwhole => hlegal (hcompatible hwhole)⟩

/-- Let the root of a compiled chart without history nodes be compound.  If the targets of
each transition may be active together, no snapshot that the machine reaches has a compound
node with two active children.  In general no microstep of a run ends with two active
children of a compound node exactly if the targets of each transition that is taken may be
active together, and then the run ends in a legal configuration. -/
theorem split_iff_of_run {document : Document.Machine} (h : ofDocument document = .ok m.chart)
    (hroot : (m.chart.kind root).isCompound = true) (hplain : m.chart.Historyless) :
  ((∀ n, ∀ t ∈ m.chart.transitions n, m.chart.Compatible t.aims) →
    ∀ s₀ s, m.Starts s₀ → m.Reaches s₀ s → ¬ m.chart.Split s.configuration) ∧
  ∀ xs s, m.Run xs s →
    ((∀ x ∈ xs, ¬ m.chart.Split (x.after m.chart m.implementations).configuration) ↔
      ∀ x ∈ xs, ∀ t ∈ x.transitions, m.chart.Compatible t.aims) ∧
    ((∀ x ∈ xs, ∀ t ∈ x.transitions, m.chart.Compatible t.aims) →
      m.chart.Legal s.configuration)
  := by
  have wf := wellFormed_of_ofDocument h
  have hentry := (lawful_entry wf).legal
  have hrestore := fun {persisted s} (h : m.restore persisted = .ok s) =>
    (lawful_restore wf h).legal
  constructor
  · intro hall s₀ s hstarts hreaches
    have legal : m.chart.Legal s.configuration := by
      apply hreaches.preserves (P := fun configuration _ => m.chart.Legal configuration)
        hstarts hentry hrestore
      intro x henabled legal
      apply (legal_after_iff wf hroot hplain henabled legal).1.mpr
      intro t ht
      obtain ⟨hsources, -⟩ := selected_of_enabled wf henabled legal
      apply hall t.source t (hsources t ht).1
    apply legal.not_split
  · intro xs s hrun
    have hcompatible := hrun.forall_after_iff
      (P := fun configuration _ => m.chart.Legal configuration) hentry hrestore
      (fun x _ henabled legal => (legal_after_iff wf hroot hplain henabled legal).1)
    have hwhole := hrun.forall_after_iff
      (P := fun configuration _ => m.chart.Legal configuration) hentry hrestore
      (fun x _ henabled legal => (legal_after_iff wf hroot hplain henabled legal).2)
    exact ⟨hwhole.1.symm.trans hcompatible.1, hcompatible.2⟩

/-- A compound machine: from `s` the event `GO` leads to a state in each region of `p`. -/
def spread : Document.Machine where
  root := .node { initial := some "s" }
    [("s", .node { on := [("GO", [{ targets := ["#machine.p.left.b", "#machine.p.right.y"] }])] }
      []),
     ("p", .node { type := some .parallel }
      [("left", .node { initial := some "a" } [("a", .node {} []), ("b", .node {} [])]),
       ("right", .node { initial := some "x" } [("x", .node {} []), ("y", .node {} [])])])]

theorem split_iff_of_run_spread :
  ∃ chart, ofDocument spread = .ok chart ∧
    ∃ s₀ s, (ofChart chart).Starts s₀ ∧ (ofChart chart).Reaches s₀ s ∧
      s.configuration = [0, 2, 3, 5, 6, 8] ∧ ¬ chart.Split s.configuration
  := by
  obtain ⟨chart, h, hp⟩ := Outcome.exists_of_any (x := ofDocument spread)
    (p := fun chart => ((chart.kind root).isCompound = true ∧ chart.Historyless ∧
      ∀ n ∈ List.range chart.nodes.length, ∀ t ∈ chart.transitions n,
        chart.Compatible t.aims) ∧
      (ofChart chart).initial.toOption.any (fun s₀ =>
        ((ofChart chart).transition s₀ (.bare "GO")).toOption.any
          (fun s => s.configuration = [0, 2, 3, 5, 6, 8])))
    (by decide +kernel)
  obtain ⟨⟨hroot, hplain, hall⟩, hs₀⟩ := of_decide_eq_true hp
  obtain ⟨s₀, hinitial, hs⟩ := Outcome.exists_of_any hs₀
  obtain ⟨s, hstep, hconfiguration⟩ := Outcome.exists_of_any hs
  have hreaches : (ofChart chart).Reaches s₀ s := .step .refl hstep
  use chart, h, s₀, s, .initial hinitial, hreaches, of_decide_eq_true hconfiguration
  apply (split_iff_of_run (m := ofChart chart) h hroot hplain).1 _ s₀ s (.initial hinitial)
    hreaches
  exact fun n t ht => hall n (List.mem_range.mpr (lt_of_mem_transitions ht)) t ht

/-- A compound machine: from `s` the event `GO` leads to `q`, whose default is `a`, and to the
state `b` of it. -/
def merged : Document.Machine where
  root := .node { initial := some "s" }
    [("s", .node { on := [("GO", [{ targets := ["#machine.q", "#machine.q.b"] }])] } []),
     ("q", .node { initial := some "a" } [("a", .node {} []), ("b", .node {} [])])]

theorem split_merged :
  ∃ chart, ofDocument merged = .ok chart ∧ (chart.kind root).isCompound = true ∧
    chart.Historyless ∧
    ∃ s₀ s, (ofChart chart).initial = .ok s₀ ∧ (ofChart chart).Reaches s₀ s ∧
      chart.Split s.configuration
  := by
  obtain ⟨chart, h, hp⟩ := Outcome.exists_of_any (x := ofDocument merged)
    (p := fun chart => ((chart.kind root).isCompound = true ∧ chart.Historyless ∧
      (chart.kind 2).isCompound = true ∧ chart.parent? 3 = some 2 ∧
      chart.parent? 4 = some 2) ∧
      (ofChart chart).initial.toOption.any (fun s₀ =>
        ((ofChart chart).transition s₀ (.bare "GO")).toOption.any
          (fun s => 3 ∈ s.configuration ∧ 4 ∈ s.configuration)))
    (by decide +kernel)
  obtain ⟨⟨hroot, hplain, hk, hc, hc'⟩, hs₀⟩ := of_decide_eq_true hp
  obtain ⟨s₀, hinitial, hs⟩ := Outcome.exists_of_any hs₀
  obtain ⟨s, hstep, hboth⟩ := Outcome.exists_of_any hs
  obtain ⟨hthree, hfour⟩ := of_decide_eq_true hboth
  use chart, h, hroot, hplain, s₀, s, hinitial, .step .refl hstep
  exact ⟨2, 3, 4, hk, hc, hc', by decide, hthree, hfour⟩

end Statechart.Machine
