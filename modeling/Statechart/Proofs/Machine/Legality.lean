import Statechart.Proofs.Configuration.Named
import Statechart.Proofs.Machine.Run
import Statechart.Proofs.Resolution.Preservation
import Statechart.Proofs.Resolution.Selection

/-!
# Legal snapshots

The configurations of the snapshots of a machine with a compound root.  They are legal if
deep histories are sound; in general a run stays legal exactly as long as what its microsteps
enter fits together with what remains (`legal_of_run`).
-/

namespace Statechart.Machine

open Progress Chart

/-- What holds of the active nodes and the histories of a resolution that stays legal. -/
structure Lawful (chart : Chart) (configuration : NodeSet) (history : History) : Prop where
  legal : chart.Legal configuration
  remembers : chart.Remembers history

variable {m : Machine}

theorem lawful_entry (wf : m.chart.WellFormed) :
  Lawful m.chart m.entry.configuration m.entry.history
  := by
  rw [entry, (configuration_enter _ _).1, (configuration_enter _ _).2]
  exact ⟨legal_addDefaults wf, remembers_nil m.chart⟩

theorem lawful_restore (wf : m.chart.WellFormed) {persisted : Persisted} {s : Snapshot}
    (h : m.restore persisted = .ok s) :
  Lawful m.chart s.configuration s.history
  := by
  obtain ⟨hconfiguration, hhistory⟩ := restore_eq_ok h
  rw [hhistory]
  exact ⟨legal_of_configurationOf wf hconfiguration, remembers_nil m.chart⟩

/-- The transitions of an enabled microstep belong to active nodes and exit no node in
common. -/
theorem selected_of_enabled (wf : m.chart.WellFormed) {x : Step}
    (henabled : x.Enabled m.chart m.implementations)
    (legal : m.chart.Legal x.before.configuration) :
  (∀ t ∈ x.transitions, t ∈ m.chart.transitions t.source ∧
    t.source ∈ x.before.configuration) ∧
  x.transitions.Pairwise (fun t u => List.Disjoint
    (m.chart.exited x.before.configuration x.before.history [t])
    (m.chart.exited x.before.configuration x.before.history [u]))
  := by
  obtain ⟨event, eventless, heq⟩ := henabled
  rw [heq, enabled]
  constructor
  · intro t ht
    apply wf.source_of_mem_select legal ht
  · apply wf.disjoint_select legal m.implementations _ _ event eventless

theorem remembers_after (wf : m.chart.WellFormed) (x : Step)
    (hlawful : Lawful m.chart x.before.configuration x.before.history) :
  m.chart.Remembers (x.after m.chart m.implementations).history
  := by
  rw [Step.after, history_microstep]
  apply hlawful.remembers.recorded wf hlawful.legal x.transitions

/-- If deep histories are sound, a microstep keeps what is lawful. -/
theorem lawful_after_of_sound (wf : m.chart.WellFormed)
    (hroot : (m.chart.kind root).isCompound = true) (hsingle : m.chart.SingleTargets)
    (hsiblings : m.chart.SiblingDefaults) (hsound : m.chart.SoundHistories) {x : Step}
    (henabled : x.Enabled m.chart m.implementations)
    (hlawful : Lawful m.chart x.before.configuration x.before.history) :
  Lawful m.chart (x.after m.chart m.implementations).configuration
    (x.after m.chart m.implementations).history
  := by
  obtain ⟨hsources, hdisjoint⟩ := selected_of_enabled wf henabled hlawful.legal
  constructor
  · apply wf.legal_of_disjoint hroot hlawful.legal hlawful.remembers hsiblings hsingle hsound
      hsources hdisjoint
  · apply remembers_after wf x hlawful

/-- A microstep keeps what is lawful exactly if what it enters fits together with what
remains. -/
theorem lawful_after_iff (wf : m.chart.WellFormed)
    (hroot : (m.chart.kind root).isCompound = true) (hsingle : m.chart.SingleTargets)
    (hsiblings : m.chart.SiblingDefaults) {x : Step}
    (henabled : x.Enabled m.chart m.implementations)
    (hlawful : Lawful m.chart x.before.configuration x.before.history) :
  Lawful m.chart (x.after m.chart m.implementations).configuration
      (x.after m.chart m.implementations).history ↔
    m.chart.Fits x.before x.transitions
  := by
  obtain ⟨hsources, hdisjoint⟩ := selected_of_enabled wf henabled hlawful.legal
  have hapart := wf.scopesApart_of_disjoint hroot hlawful.legal (fun t ht => (hsources t ht).2)
    hdisjoint
  have hiff : m.chart.Legal (x.after m.chart m.implementations).configuration ↔ _ :=
    wf.legal_microstep_iff_fits hroot hlawful.legal hlawful.remembers hsiblings hsingle hapart
      hsources
  rw [← hiff]
  constructor
  · exact fun hafter => hafter.legal
  · exact fun hafter => ⟨hafter, remembers_after wf x hlawful⟩

/-- Let the root of a compiled chart be compound, let its transitions have at most one
target, and let the declared defaults of its history nodes be states beside them.  If deep
histories are sound, every snapshot that the machine reaches from its start or from a
restored snapshot is legal.  In general the microsteps of a run all end in legal
configurations exactly if in each of them what is entered fits together with what remains,
and then so does the run.  If each microstep takes one transition, this says that the
transitions are confined. -/
theorem legal_of_run {document : Document.Machine} (h : ofDocument document = .ok m.chart)
    (hroot : (m.chart.kind root).isCompound = true) (hsingle : m.chart.SingleTargets)
    (hsiblings : m.chart.SiblingDefaults) :
  (m.chart.SoundHistories → ∀ s₀ s, m.Starts s₀ → m.Reaches s₀ s →
    m.chart.Legal s.configuration) ∧
  ∀ xs s, m.Run xs s →
    ((∀ x ∈ xs, m.chart.Legal (x.after m.chart m.implementations).configuration) ↔
      ∀ x ∈ xs, m.chart.Fits x.before x.transitions) ∧
    ((∀ x ∈ xs, m.chart.Fits x.before x.transitions) → m.chart.Legal s.configuration) ∧
    ((∀ x ∈ xs, ∃ t, x.transitions = [t]) →
      ((∀ x ∈ xs, m.chart.Fits x.before x.transitions) ↔
        ∀ x ∈ xs, ∀ t, x.transitions = [t] → m.chart.Confined x.before t))
  := by
  have wf := wellFormed_of_ofDocument h
  constructor
  · intro hsound s₀ s hstarts hreaches
    have hlawful : Lawful m.chart s.configuration s.history := by
      apply hreaches.preserves hstarts (lawful_entry wf) (lawful_restore wf)
      exact fun x => lawful_after_of_sound wf hroot hsingle hsiblings hsound
    apply hlawful.legal
  · intro xs s hrun
    -- the histories remember as long as the configurations are legal
    have hlegal := hrun.forall_after_iff (lawful_entry wf) (lawful_restore wf)
      (K := fun x => m.chart.Legal (x.after m.chart m.implementations).configuration)
      (fun x _ _ hlawful => ⟨fun hafter => hafter.legal,
        fun hafter => ⟨hafter, remembers_after wf x hlawful⟩⟩)
    have hfits := hrun.forall_after_iff (lawful_entry wf) (lawful_restore wf)
      (K := fun x => m.chart.Fits x.before x.transitions)
      (fun x _ henabled hlawful =>
        lawful_after_iff wf hroot hsingle hsiblings henabled hlawful)
    and_intros
    · rw [← hlegal.1, hfits.1]
    · intro hall
      exact (hfits.2 hall).legal
    · intro hone
      have hconfined := hrun.forall_after_iff (lawful_entry wf) (lawful_restore wf)
        (K := fun x => ∀ t, x.transitions = [t] → m.chart.Confined x.before t)
        (by
          intro x hx henabled hlawful
          obtain ⟨t, ht⟩ := hone x hx
          obtain ⟨hsources, -⟩ := selected_of_enabled wf henabled hlawful.legal
          obtain ⟨hmem, hsource⟩ := hsources t (by rw [ht]; exact List.mem_singleton_self t)
          rw [lawful_after_iff wf hroot hsingle hsiblings henabled hlawful, ht,
            wf.fits_iff_confined hlawful.legal hlawful.remembers hsiblings hsingle hmem hsource]
          simp)
      rw [← hfits.1, hconfined.1]

/-- A parallel state with a deep history: in its region `left` the event `BACK` leads to the
history. -/
def resumed : Document.Machine where
  root := .node { initial := some "p" }
    [("p", .node { type := some .parallel }
      [("left", .node { initial := some "a" }
        [("a", .node { on := [("BACK", [{ targets := ["#machine.p.h"] }])] } [])]),
       ("right", .node { initial := some "x", on := [("NEXT", [{ targets := [".y"] }])] }
        [("x", .node {} []), ("y", .node {} [])]),
       ("h", .node { type := some .history, history := some .deep } [])])]

theorem legal_of_run_resumed :
  ∃ chart, ofDocument resumed = .ok chart ∧ chart.SoundHistories ∧
    ∃ s₀ s, (ofChart chart).Starts s₀ ∧ (ofChart chart).Reaches s₀ s ∧
      s.configuration = [0, 1, 2, 3, 4, 6] ∧ chart.Legal s.configuration
  := by
  obtain ⟨chart, h, hp⟩ := Outcome.exists_of_any (x := ofDocument resumed)
    (p := fun chart => ((chart.kind root).isCompound = true ∧ chart.SingleTargets ∧
      chart.SiblingDefaults ∧ chart.SoundHistories) ∧
      (ofChart chart).initial.toOption.any (fun s₀ =>
        ([.bare "NEXT", .bare "BACK"].foldlM (ofChart chart).transition s₀).toOption.any
          (fun s => s.configuration = [0, 1, 2, 3, 4, 6])))
    (by decide +kernel)
  obtain ⟨⟨hroot, hsingle, hsiblings, hsound⟩, hs₀⟩ := of_decide_eq_true hp
  obtain ⟨s₀, hinitial, hs⟩ := Outcome.exists_of_any hs₀
  obtain ⟨s, hevents, hconfiguration⟩ := Outcome.exists_of_any hs
  have hreaches := reaches_iff.mpr ⟨_, hevents⟩
  have hall := legal_of_run (m := ofChart chart) h hroot hsingle hsiblings
  use chart, h, hsound, s₀, s, .initial hinitial, hreaches, of_decide_eq_true hconfiguration
  apply hall.1 hsound s₀ s (.initial hinitial) hreaches

/-- A parallel state with one region, whose history is deep: a transition from the region to
the history exits the state, but enters the region alone again. -/
def escaped : Document.Machine where
  root := .node { initial := some "p" }
    [("p", .node { type := some .parallel }
      [("r", .node { initial := some "a" }
        [("a", .node { on := [("GO", [{ targets := ["#machine.p.h"] }])] } []),
         ("b", .node {} [])]),
       ("h", .node { type := some .history, history := some .deep } [])])]

theorem not_legal_escaped :
  ∃ chart, ofDocument escaped = .ok chart ∧ (chart.kind root).isCompound = true ∧
    chart.SingleTargets ∧ chart.SiblingDefaults ∧
    ∃ s₀ s, (ofChart chart).Starts s₀ ∧ (ofChart chart).Reaches s₀ s ∧
      ¬ chart.Legal s.configuration
  := by
  obtain ⟨chart, h, hp⟩ := Outcome.exists_of_any (x := ofDocument escaped)
    (p := fun chart => ((chart.kind root).isCompound = true ∧ chart.SingleTargets ∧
      chart.SiblingDefaults) ∧
      (ofChart chart).initial.toOption.any (fun s₀ =>
        ((ofChart chart).transition s₀ (.bare "GO")).toOption.any
          (fun s => ¬ chart.Legal s.configuration)))
    (by decide +kernel)
  obtain ⟨⟨hroot, hsingle, hsiblings⟩, hs₀⟩ := of_decide_eq_true hp
  obtain ⟨s₀, hinitial, hs⟩ := Outcome.exists_of_any hs₀
  obtain ⟨s, hstep, hillegal⟩ := Outcome.exists_of_any hs
  use chart, h, hroot, hsingle, hsiblings, s₀, s, .initial hinitial, .step .refl hstep
  apply of_decide_eq_true hillegal

end Statechart.Machine
