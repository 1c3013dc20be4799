import Statechart.Proofs.Configuration.Address
import Statechart.Proofs.Machine.Completion
import Statechart.Proofs.Resolution.Targets

/-!
# Persisted snapshots

What persists of a snapshot are its value and its context.  In a machine without histories the
active nodes are found again from the value, so a snapshot that is not done gives the same
answers when it is restored.  A restored snapshot is never done; one that was done before
takes transitions again (`answers_restore`).
-/

namespace Statechart

namespace Chart

variable {chart : Chart}

theorem Historyless.siblingDefaults (h : chart.Historyless) :
  chart.SiblingDefaults
  := by
  intro n x hx
  have hn := h n
  cases hkind : chart.kind n with
  | history depth defaults =>
    rw [hkind] at hn
    cases hn
  | _ =>
    rw [hkind] at hx
    cases hx

theorem Historyless.soundHistories (h : chart.Historyless) :
  chart.SoundHistories
  := by
  intro n t ht k hk p hp hdeep
  have hk := h k
  cases hkind : chart.kind k with
  | history depth defaults =>
    rw [hkind] at hk
    cases hk
  | _ =>
    rw [hkind] at hdeep
    cases hdeep

/-- Without history nodes nothing is recorded. -/
theorem Historyless.recorded (h : chart.Historyless) (configuration : NodeSet)
    (history : History) (ts : List Transition) :
  Progress.recorded chart configuration history ts = history
  := by
  have hnode : ∀ history n, Progress.recordNode chart configuration history n = history := by
    intro history n
    rw [Progress.recordNode]
    induction chart.children n with
    | nil => rfl
    | cons c cs ih =>
      rw [List.foldl_cons]
      have hc := h c
      cases hkind : chart.kind c with
      | history depth defaults =>
        rw [hkind] at hc
        cases hc
      | _ => exact ih
  rw [Progress.recorded, Progress.recordAll]
  induction (chart.exited configuration history ts).reverse with
  | nil => rfl
  | cons n ns ih => rw [List.foldl_cons, hnode, ih]

end Chart

/-- Whether two snapshots look alike: they have the same value, context, actions and done
flag. -/
structure Snapshot.Alike (s s' : Snapshot) : Prop where
  value : s.value = s'.value
  context : s.context = s'.context
  actions : s.actions = s'.actions
  done : s.done = s'.done

namespace Machine

open Progress Chart

/-- Whether two answers of a machine agree: both are snapshots that look alike, or both are the
same fault. -/
inductive Agree : Except Fault Snapshot → Except Fault Snapshot → Prop where
  | ok {s s'} (h : s.Alike s') : Agree (.ok s) (.ok s')
  | error {fault} : Agree (.error fault) (.error fault)

/-- The answers of a machine to events, one after the other; an event that fails leaves the
snapshot as it is. -/
def answers (m : Machine) (s : Snapshot) : List Event → List (Except Fault Snapshot)
  | [] => []
  | event :: events =>
    m.transition s event :: m.answers ((m.transition s event).toOption.getD s) events

variable {m : Machine} {s s₀ s' next next' : Snapshot} {event : Event} {events : List Event}

/-! ### Snapshots with the same answers -/

/-- Snapshots that differ at most in the event that they answer and its actions react
alike. -/
theorem transition_congr (h : ∀ event, s'.unchanged event = s.unchanged event)
    (event : Event) :
  m.transition s' event = m.transition s event
  := by
  have hevent := h event
  cases s
  cases s'
  simp only [Snapshot.unchanged, Snapshot.mk.injEq, true_and] at hevent
  obtain ⟨rfl, rfl, rfl, rfl, rfl, rfl⟩ := hevent
  rfl

theorem answers_congr (h : ∀ event, s'.unchanged event = s.unchanged event) :
  m.answers s' events = m.answers s events
  := by
  induction events with
  | nil => rfl
  | cons event events ih =>
    have hstep := transition_congr (m := m) h event
    cases hnext : m.transition s event with
    | ok next =>
      rw [hnext] at hstep
      simp only [answers, hnext, hstep]
      rfl
    | error fault =>
      rw [hnext] at hstep
      simp only [answers, hnext, hstep]
      exact congrArg _ ih

/-- Snapshots that are done and look alike but for their actions give answers that agree. -/
theorem agree_of_done (hdone : s.done = true) (hdone' : s'.done = true)
    (hvalue : s.value = s'.value) (hcontext : s.context = s'.context) (events : List Event) :
  List.Forall₂ Agree (m.answers s events) (m.answers s' events)
  := by
  induction events generalizing s s' with
  | nil => apply List.Forall₂.nil
  | cons event events ih =>
    rw [answers, answers, transition_of_rest (Or.inl hdone), transition_of_rest (Or.inl hdone')]
    apply List.Forall₂.cons (.ok ⟨hvalue, hcontext, rfl, hdone.trans hdone'.symm⟩)
    exact ih hdone hdone' hvalue hcontext

/-- The answers of a snapshot that is done agree with those of another snapshot exactly if the
other one answers each event with a snapshot that looks like the first one. -/
theorem agree_iff_of_done (hdone : s.done = true) :
  (∀ events, List.Forall₂ Agree (m.answers s events) (m.answers s' events)) ↔
    ∀ event, ∃ next, m.transition s' event = .ok next ∧ (s.unchanged event).Alike next
  := by
  have hrest : ∀ event, m.transition s event = .ok (s.unchanged event) :=
    fun event => transition_of_rest (Or.inl hdone)
  constructor
  · intro hagree event
    have hone := hagree [event]
    simp only [answers, hrest] at hone
    cases hstep : m.transition s' event with
    | ok next =>
      rw [hstep] at hone
      cases hone with
      | cons hfirst _ =>
        cases hfirst with
        | ok halike => exact ⟨next, rfl, halike⟩
    | error fault =>
      rw [hstep] at hone
      cases hone with
      | cons hfirst _ => cases hfirst
  · intro hall events
    cases events with
    | nil => apply List.Forall₂.nil
    | cons event events =>
      obtain ⟨next, hnext, halike⟩ := hall event
      simp only [answers, hrest, hnext]
      apply List.Forall₂.cons (.ok halike)
      exact agree_of_done (s := s.unchanged event) hdone (halike.done.symm.trans hdone)
        halike.value halike.context events

/-! ### Restored snapshots -/

/-- The value of a snapshot that is reached from the first one is the address of its active
nodes. -/
theorem Reaches.value_eq (h : m.Reaches s₀ s) (hinitial : m.initial = .ok s₀) :
  s.value = m.chart.address s.configuration
  := by
  induction h with
  | refl =>
    obtain ⟨xs, p, -, rfl⟩ := exists_settles_initial hinitial
    rfl
  | step h hstep ih =>
    obtain ⟨xs, hmoves⟩ := exists_moves hstep
    cases hmoves with
    | rest => exact ih
    | react hsettles => rfl

/-- Without history nodes the snapshots that are reached are legal and record no
histories. -/
theorem Reaches.lawful_of_historyless (h : m.Reaches s₀ s) (hstarts : m.Starts s₀)
    (wf : m.chart.WellFormed) (hroot : (m.chart.kind root).isCompound = true)
    (hplain : m.chart.Historyless) (hsingle : m.chart.SingleTargets) :
  m.chart.Legal s.configuration ∧ s.history = []
  := by
  have hlawful : Lawful m.chart s.configuration s.history ∧ s.history = [] := by
    apply h.preserves (P := fun configuration history =>
      Lawful m.chart configuration history ∧ history = []) hstarts
    · exact ⟨lawful_entry wf, (configuration_enter _ _).2⟩
    · exact fun hrestore => ⟨lawful_restore wf hrestore, (restore_eq_ok hrestore).2⟩
    · rintro x henabled ⟨hlawful, hhistory⟩
      constructor
      · apply lawful_after_of_sound wf hroot hsingle hplain.siblingDefaults hplain.soundHistories
          henabled hlawful
      · rw [Step.after, history_microstep, hplain.recorded, hhistory]
  exact ⟨hlawful.1.legal, hlawful.2⟩

/-- What persists of a legal snapshot is restored to a snapshot with the same active nodes,
which has recorded no histories and is not done. -/
theorem restore_persist (wf : m.chart.WellFormed) (hkeys : m.chart.DistinctKeys)
    (legal : m.chart.Legal s.configuration) (hvalue : s.value = m.chart.address s.configuration) :
  ∃ s', m.restore s.persist = .ok s' ∧ s'.configuration = s.configuration ∧ s'.done = false ∧
    ∀ event, s'.unchanged event =
      { s.unchanged event with done := false, doneData := none, history := [] }
  := by
  rw [restore, show s.persist.value = m.chart.address s.configuration from hvalue,
    wf.configurationOf_address hkeys legal]
  refine ⟨_, rfl, rfl, rfl, ?_⟩
  intro event
  rw [Snapshot.unchanged, Snapshot.unchanged, snapshotOf, hvalue]
  rfl

/-- Let the root of a compiled chart without histories be compound, let its transitions have at
most one target, and let the children of each node have distinct keys.  What persists of a
snapshot that is reached from the first one is restored to a snapshot with the same active
nodes that is not done.  If the snapshot was not done either, both give the same answers.  If
it was done, their answers agree exactly if the restored snapshot answers each event with a
snapshot that looks like the one that was done. -/
theorem answers_restore {document : Document.Machine} (h : ofDocument document = .ok m.chart)
    (hroot : (m.chart.kind root).isCompound = true) (hplain : m.chart.Historyless)
    (hsingle : m.chart.SingleTargets) (hkeys : m.chart.DistinctKeys)
    (hinitial : m.initial = .ok s₀) (hreaches : m.Reaches s₀ s) :
  ∃ s', m.restore s.persist = .ok s' ∧ s'.configuration = s.configuration ∧ s'.done = false ∧
    (s.done = false → ∀ events, m.answers s' events = m.answers s events) ∧
    (s.done = true →
      ((∀ events, List.Forall₂ Agree (m.answers s events) (m.answers s' events)) ↔
        ∀ event, ∃ next, m.transition s' event = .ok next ∧ (s.unchanged event).Alike next))
  := by
  have wf := wellFormed_of_ofDocument h
  obtain ⟨legal, hhistory⟩ := hreaches.lawful_of_historyless (.initial hinitial) wf hroot hplain
    hsingle
  obtain ⟨s', hrestore, hconfiguration, hs'done, hs'⟩ :=
    restore_persist wf hkeys legal (hreaches.value_eq hinitial)
  use s', hrestore, hconfiguration, hs'done
  constructor
  · intro hdone events
    apply answers_congr
    intro event
    have hdata := (hreaches.concluded hinitial).data_eq hdone
    rw [hs' event, ← hdone, ← hdata, ← hhistory]
    rfl
  · exact agree_iff_of_done

/-- A machine that comes to its end with the event `GO` and leaves it again with `RESET`. -/
def reopened : Document.Machine where
  root := .node { initial := some "a", on := [("RESET", [{ targets := ["a"] }])] }
    [("a", .node { on := [("GO", [{ targets := ["f"] }])] } []),
     ("f", .node { type := some .final } [])]

theorem answers_restore_reopened :
  ∃ chart, ofDocument reopened = .ok chart ∧ (chart.kind root).isCompound = true ∧
    chart.Historyless ∧ chart.SingleTargets ∧ chart.DistinctKeys ∧
    ∃ s₀ s s', (ofChart chart).initial = .ok s₀ ∧ (ofChart chart).Reaches s₀ s ∧
      s.done = false ∧ (ofChart chart).restore s.persist = .ok s' ∧
      ∀ events, (ofChart chart).answers s' events = (ofChart chart).answers s events
  := by
  obtain ⟨chart, h, hp⟩ := Outcome.exists_of_any (x := ofDocument reopened)
    (p := fun chart => (chart.kind root).isCompound = true ∧ chart.Historyless ∧
      chart.SingleTargets ∧ chart.DistinctKeys ∧
      (ofChart chart).initial.toOption.any (fun s₀ =>
        ((ofChart chart).transition s₀ (.bare "RESET")).toOption.any (fun s => s.done = false)))
    (by decide +kernel)
  obtain ⟨hroot, hplain, hsingle, hkeys, hs₀⟩ := of_decide_eq_true hp
  obtain ⟨s₀, hinitial, hs⟩ := Outcome.exists_of_any hs₀
  obtain ⟨s, hstep, hdone⟩ := Outcome.exists_of_any hs
  have hreaches : (ofChart chart).Reaches s₀ s := .step .refl hstep
  obtain ⟨s', hrestore, -, -, hanswers, -⟩ := answers_restore (m := ofChart chart) h hroot hplain
    hsingle hkeys hinitial hreaches
  exact ⟨chart, h, hroot, hplain, hsingle, hkeys, s₀, s, s', hinitial, hreaches,
    of_decide_eq_true hdone, hrestore, hanswers (of_decide_eq_true hdone)⟩

theorem not_agree_reopened :
  ∃ chart, ofDocument reopened = .ok chart ∧ (chart.kind root).isCompound = true ∧
    chart.Historyless ∧ chart.SingleTargets ∧ chart.DistinctKeys ∧
    ∃ s₀ s s' next, (ofChart chart).initial = .ok s₀ ∧ (ofChart chart).Reaches s₀ s ∧
      s.done = true ∧ s.configuration = [0, 2] ∧
      (ofChart chart).restore s.persist = .ok s' ∧
      (ofChart chart).transition s' (.bare "RESET") = .ok next ∧
      next.configuration = [0, 1] ∧
      ¬ Agree ((ofChart chart).transition s (.bare "RESET")) (.ok next)
  := by
  obtain ⟨chart, h, hp⟩ := Outcome.exists_of_any (x := ofDocument reopened)
    (p := fun chart => (chart.kind root).isCompound = true ∧ chart.Historyless ∧
      chart.SingleTargets ∧ chart.DistinctKeys ∧
      (ofChart chart).initial.toOption.any (fun s₀ =>
        ((ofChart chart).transition s₀ (.bare "GO")).toOption.any (fun s =>
          s.done = true ∧ s.configuration = [0, 2] ∧
          ((ofChart chart).restore s.persist).toOption.any (fun s' =>
            ((ofChart chart).transition s' (.bare "RESET")).toOption.any (fun next =>
              next.configuration = [0, 1] ∧ next.done = false)))))
    (by decide +kernel)
  obtain ⟨hroot, hplain, hsingle, hkeys, hs₀⟩ := of_decide_eq_true hp
  obtain ⟨s₀, hinitial, hs⟩ := Outcome.exists_of_any hs₀
  obtain ⟨s, hstep, hs⟩ := Outcome.exists_of_any hs
  obtain ⟨hdone, hend, hs'⟩ := of_decide_eq_true hs
  obtain ⟨s', hrestore, hnext⟩ := Outcome.exists_of_any hs'
  obtain ⟨next, hreset, hnext⟩ := Outcome.exists_of_any hnext
  obtain ⟨hmoved, hopen⟩ := of_decide_eq_true hnext
  refine ⟨chart, h, hroot, hplain, hsingle, hkeys, s₀, s, s', next, hinitial,
    .step .refl hstep, hdone, hend, hrestore, hreset, hmoved, ?_⟩
  rw [transition_of_rest (Or.inl hdone)]
  intro hagree
  cases hagree with
  | ok halike => exact absurd (halike.done.symm.trans hdone) (by rw [hopen]; decide)

end Machine

end Statechart
