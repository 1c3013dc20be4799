import Statechart.Proofs.Machine.Legality
import Statechart.Proofs.Machine.Path
import Statechart.Proofs.Resolution.Restoration

/-!
# Restored histories in runs

When the parent of a history node is not active, a transition to the history node restores in
the subtree of the parent what was active when the parent was exited last, as long as the
configurations on the way are legal (`restored_of_run`).
-/

namespace Statechart.Machine

open Progress Chart

variable {m : Machine} {s : Snapshot}

/-- The histories with which a machine begins remember legal configurations. -/
theorem Begins.remembers (wf : m.chart.WellFormed) {c : NodeSet} {η : History}
    (h : m.Begins c η) :
  m.chart.Remembers η
  := by
  cases h with
  | entry => exact (lawful_entry wf).remembers
  | restored h => exact (lawful_restore wf h).remembers

section

variable {pre mid post : List Step} {y x : Step} {n p : Nat} {depth : HistoryDepth}
  {defaults : List Nat}

/-- After a run through legal configurations a history node has what it recorded when its
parent was exited last. -/
theorem Run.lookup_of_last (wf : m.chart.WellFormed)
    (hrun : m.Run (pre ++ y :: (mid ++ x :: post)) s)
    (hlegal : ∀ z ∈ pre ++ y :: mid, m.chart.Legal z.before.configuration)
    (hk : m.chart.kind n = .history depth defaults) (hp : m.chart.parent? n = some p)
    (hexited : p ∈ y.before.exiting m.chart y.transitions)
    (hlast : ∀ z ∈ mid, p ∉ z.before.exiting m.chart z.transitions) :
  m.chart.Remembers x.before.history ∧
    x.before.history.lookup n = some (recording m.chart y.before.configuration p depth)
  := by
  obtain ⟨c, η, hbegins, hpath⟩ := hrun.exists_path
  obtain ⟨c₁, η₁, hpre, hpath⟩ := hpath.split
  cases hpath with
  | cons hpath =>
    obtain ⟨c₂, η₂, hmid, hpath⟩ := hpath.split
    cases hpath with
    | cons hpath =>
      constructor
      · apply (hpre.append (.cons hmid)).remembers wf (hbegins.remembers wf) hlegal
      · rw [hmid.lookup wf hp hlast, Step.after, history_microstep,
          lookup_recorded_of_mem wf hk hp hexited]

/-- Let the root of a compiled chart be compound, let its transitions have at most one target,
let the declared defaults of its history nodes be states beside them, and let each parallel
node have a region.  In a run let `y` be the last microstep before `x` that exits the parent
`p` of a history node, and let `x` take a transition to the history node while `p` is not
active.  If deep histories are sound, or the configurations up to `x` are legal, the active
nodes in the subtree of `p` after `x` are, for a deep history, those before `y`, and for a
shallow one `p` and the default descendants of the children of `p` that were active before
`y`. -/
theorem restored_of_run {document : Document.Machine} (h : ofDocument document = .ok m.chart)
    (hroot : (m.chart.kind root).isCompound = true) (hsingle : m.chart.SingleTargets)
    (hsiblings : m.chart.SiblingDefaults) (hregioned : m.chart.Regioned)
    (hrun : m.Run (pre ++ y :: (mid ++ x :: post)) s)
    (hk : m.chart.kind n = .history depth defaults) (hp : m.chart.parent? n = some p)
    (hexited : p ∈ y.before.exiting m.chart y.transitions)
    (hlast : ∀ z ∈ mid, p ∉ z.before.exiting m.chart z.transitions)
    (hinactive : p ∉ x.before.configuration)
    {t : Transition} (ht : t ∈ x.transitions) (htargets : t.targets = [n])
    (hlegal : m.chart.SoundHistories ∨
      ∀ z ∈ pre ++ y :: (mid ++ [x]), m.chart.Legal z.before.configuration) :
  ∀ k, m.chart.Within k p → (k ∈ (x.after m.chart m.implementations).configuration ↔
    m.chart.Restored y.before.configuration p depth k)
  := by
  have wf := wellFormed_of_ofDocument h
  have hlegal : ∀ z ∈ pre ++ y :: (mid ++ [x]), m.chart.Legal z.before.configuration := by
    rcases hlegal with hsound | hlegal
    · have hlawful := hrun.forall_before (P := Lawful m.chart) (lawful_entry wf)
        (lawful_restore wf)
        (fun x => lawful_after_of_sound wf hroot hsingle hsiblings hsound)
      intro z hz
      apply (hlawful z _).legal
      simp only [List.mem_append, List.mem_cons, List.not_mem_nil, or_false] at hz ⊢
      tauto
    · exact hlegal
  have hx : x ∈ pre ++ y :: (mid ++ x :: post) := by simp
  have legal := hlegal x (by simp)
  obtain ⟨hremembers, hlookup⟩ := hrun.lookup_of_last wf
    (fun z hz => hlegal z (by
      simp only [List.mem_append, List.mem_cons] at hz ⊢
      tauto)) hk hp hexited hlast
  obtain ⟨hsources, hdisjoint⟩ := selected_of_enabled wf (hrun.enabled x hx) legal
  intro k hkp
  have hentering := wf.mem_entering_iff_restored hroot legal hremembers hsiblings hsingle
    hregioned hsources hdisjoint ht (by simp [Transition.aims, htargets]) hk hp hinactive
    (hlegal y (by simp)) (mem_exiting.mp hexited).1 hlookup hkp
  rw [Step.after, mem_configuration_microstep, hentering]
  apply or_iff_right
  rintro ⟨hactive, -⟩
  apply hinactive (legal.mem_of_within wf hactive hkp)

end

/-- A parallel state with a deep history.  The event `LEAVE` leads out of the state, and `BACK`
to the history. -/
def revisited : Document.Machine where
  root := .node { initial := some "p" }
    [("p", .node { type := some .parallel, on := [("LEAVE", [{ targets := ["out"] }])] }
      [("left", .node { initial := some "a" }
        [("a", .node { on := [("NEXT", [{ targets := ["b"] }])] } []), ("b", .node {} [])]),
       ("right", .node { initial := some "x" } [("x", .node {} []), ("y", .node {} [])]),
       ("h", .node { type := some .history, history := some .deep } [])]),
     ("out", .node { on := [("BACK", [{ targets := ["#machine.p.h"] }])] } [])]

theorem restored_of_run_revisited :
  ∃ chart, ofDocument revisited = .ok chart ∧
    ∃ (pre : List Step) (y x : Step) (s : Snapshot) (t : Transition),
      (ofChart chart).Run (pre ++ y :: ([] ++ [x])) s ∧
      y.before.configuration = [0, 1, 2, 4, 5, 6] ∧ x.before.configuration = [0, 9] ∧
      t ∈ x.transitions ∧ t.targets = [8] ∧
      ∀ k, chart.Within k 1 →
        (k ∈ (x.after chart {}).configuration ↔ chart.Restored [0, 1, 2, 4, 5, 6] 1 .deep k)
  := by
  obtain ⟨chart, h, hp⟩ := Outcome.exists_of_any (x := ofDocument revisited)
    (p := fun chart =>
      let m := ofChart chart
      ((chart.kind root).isCompound = true ∧ chart.SingleTargets ∧ chart.SiblingDefaults ∧
        chart.Regioned ∧ chart.SoundHistories) ∧
      ((chart.kind 8).isDeep = true ∧ chart.parent? 8 = some 1) ∧
      (m.entry.done = false ∧ (m.entry.upcoming chart {} .init m.entry.queue).isNone = true) ∧
      ∃ s₀ ∈ [m.snapshotOf .init none { m.entry with queue := [] }],
      ∃ s₁ ∈ [m.reacted s₀ (.bare "NEXT")], ∃ s₂ ∈ [m.reacted s₁ (.bare "LEAVE")],
      (∀ e ∈ [(s₀, "NEXT"), (s₁, "LEAVE"), (s₂, "BACK")],
        let q := (m.reaction e.1 (.bare e.2)).after chart {}
        q.done = false ∧ (q.upcoming chart {} (.bare e.2) q.queue).isNone = true) ∧
      s₁.configuration = [0, 1, 2, 4, 5, 6] ∧ s₂.configuration = [0, 9] ∧
      1 ∈ (resume s₁).exiting chart (m.reaction s₁ (.bare "LEAVE")).transitions ∧
      (m.reaction s₂ (.bare "BACK")).transitions.any (fun t => t.targets = [8]) = true)
    (by decide +kernel)
  obtain ⟨⟨hroot, hsingle, hsiblings, hregioned, hsound⟩, ⟨hdeep, hparent⟩, ⟨hdone, hnone⟩,
    s₀, hs₀, s₁, hs₁, s₂, hs₂, hreactions, hbefore, hgone, hexited, hx⟩ := of_decide_eq_true hp
  rw [List.forall_mem_cons, List.forall_mem_cons, List.forall_mem_singleton] at hreactions
  obtain ⟨⟨hdone₁, hnone₁⟩, ⟨hdone₂, hnone₂⟩, hdone₃, hnone₃⟩ := hreactions
  obtain ⟨defaults, hk⟩ := Kind.eq_history_of_isDeep hdeep
  obtain ⟨t, ht, htargets⟩ := List.any_eq_true.mp hx
  have hrun : (ofChart chart).Run [] s₀ := by
    rw [List.mem_singleton.mp hs₀]
    exact .initial (.idle hdone (Option.isNone_iff_eq_none.mp hnone))
  have hrun := hrun.step (moves_reacted hdone₁ (Option.isNone_iff_eq_none.mp hnone₁))
  rw [← List.mem_singleton.mp hs₁] at hrun
  have hrun := hrun.step (moves_reacted hdone₂ (Option.isNone_iff_eq_none.mp hnone₂))
  rw [← List.mem_singleton.mp hs₂] at hrun
  have hrun := hrun.step (moves_reacted hdone₃ (Option.isNone_iff_eq_none.mp hnone₃))
  have hrun' : (ofChart chart).Run ([(ofChart chart).reaction s₀ (.bare "NEXT")] ++
      (ofChart chart).reaction s₁ (.bare "LEAVE") ::
        ([] ++ [(ofChart chart).reaction s₂ (.bare "BACK")])) _ := hrun
  have hinactive : 1 ∉ s₂.configuration := by
    rw [hgone]
    decide
  have hrestored := restored_of_run (m := ofChart chart) h hroot hsingle hsiblings hregioned
    hrun' hk hparent hexited (fun z (hz : z ∈ []) => absurd hz List.not_mem_nil) hinactive ht
    (of_decide_eq_true htargets) (Or.inl hsound)
  refine ⟨chart, h, _, _, _, _, t, hrun', hbefore, hgone, ht, of_decide_eq_true htargets, ?_⟩
  rw [← hbefore]
  exact hrestored

theorem not_restored_escaped :
  ∃ chart, ofDocument escaped = .ok chart ∧
    ((chart.kind root).isCompound = true ∧ chart.SingleTargets ∧ chart.SiblingDefaults ∧
      chart.Regioned ∧ (chart.kind 5).isDeep = true ∧ chart.parent? 5 = some 1) ∧
    ∃ s₀ s₁ s₂ y x t, (ofChart chart).initial = .ok s₀ ∧
      (ofChart chart).transition s₀ (.bare "GO") = .ok s₁ ∧
      (ofChart chart).transition s₁ (.bare "GO") = .ok s₂ ∧
      (ofChart chart).Run ([] ++ y :: ([] ++ [x])) s₂ ∧
      y.before.configuration = s₀.configuration ∧
      1 ∈ y.before.exiting chart y.transitions ∧ 1 ∉ x.before.configuration ∧
      t ∈ x.transitions ∧ t.targets = [5] ∧
      chart.Restored y.before.configuration 1 .deep 1 ∧ 1 ∉ (x.after chart {}).configuration
  := by
  obtain ⟨chart, h, hp⟩ := Outcome.exists_of_any (x := ofDocument escaped)
    (p := fun chart =>
      let m := ofChart chart
      ((chart.kind root).isCompound = true ∧ chart.SingleTargets ∧ chart.SiblingDefaults ∧
        chart.Regioned ∧ (chart.kind 5).isDeep = true ∧ chart.parent? 5 = some 1) ∧
      (m.entry.done = false ∧ (m.entry.upcoming chart {} .init m.entry.queue).isNone = true) ∧
      ∃ s₀ ∈ [m.snapshotOf .init none { m.entry with queue := [] }],
      ∃ s₁ ∈ [m.reacted s₀ (.bare "GO")],
      (∀ s ∈ [s₀, s₁], s.done = false ∧ (m.reaction s (.bare "GO")).transitions.isEmpty = false ∧
        let q := (m.reaction s (.bare "GO")).after chart {}
        q.done = false ∧ (q.upcoming chart {} (.bare "GO") q.queue).isNone = true) ∧
      1 ∈ s₀.configuration ∧
      1 ∈ (resume s₀).exiting chart (m.reaction s₀ (.bare "GO")).transitions ∧
      1 ∉ s₁.configuration ∧
      (m.reaction s₁ (.bare "GO")).transitions.any (fun t => t.targets = [5]) = true ∧
      1 ∉ ((m.reaction s₁ (.bare "GO")).after chart {}).configuration)
    (by decide +kernel)
  obtain ⟨hchart, ⟨hdone, hnone⟩, s₀, hs₀, s₁, hs₁, hreactions, hbefore, hexited, hgone, hx,
    hlost⟩ := of_decide_eq_true hp
  rw [List.forall_mem_cons, List.forall_mem_singleton] at hreactions
  obtain ⟨⟨hs₀done, hne₀, hdone₀, hnone₀⟩, hs₁done, hne₁, hdone₁, hnone₁⟩ := hreactions
  obtain ⟨t, ht, htargets⟩ := List.any_eq_true.mp hx
  have hnone := Option.isNone_iff_eq_none.mp hnone
  have hnone₀ := Option.isNone_iff_eq_none.mp hnone₀
  have hnone₁ := Option.isNone_iff_eq_none.mp hnone₁
  have hlimit : (ofChart chart).limit ≠ 0 := Nat.succ_ne_zero _
  have hinitial := initial_of_idle (m := ofChart chart) hlimit hdone hnone
  have hrun := Run.initial (m := ofChart chart) (.idle hdone hnone)
  rw [← List.mem_singleton.mp hs₀] at hinitial hrun
  have hstep₀ := transition_of_idle hlimit hs₀done (by simpa using hne₀) hdone₀ hnone₀
  have hrun := hrun.step (moves_reacted hdone₀ hnone₀)
  rw [← List.mem_singleton.mp hs₁] at hstep₀ hrun
  have hstep₁ := transition_of_idle hlimit hs₁done (by simpa using hne₁) hdone₁ hnone₁
  have hrun := hrun.step (moves_reacted hdone₁ hnone₁)
  exact ⟨chart, h, hchart, s₀, s₁, _, (ofChart chart).reaction s₀ (.bare "GO"),
    (ofChart chart).reaction s₁ (.bare "GO"), t, hinitial, hstep₀, hstep₁, hrun, rfl, hexited,
    hgone, ht, of_decide_eq_true htargets, hbefore, hlost⟩

end Statechart.Machine
