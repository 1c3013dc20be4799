import Statechart.Proofs.Machine.Legality

/-!
# Completion

A machine is done when a final child of the root is entered, and takes no transition from
then on.  So a snapshot is done exactly if a final child of the root is active
(`Reaches.concluded`).  A compound root is complete under the same condition; a parallel root
is not, for it is complete when all its regions are, none of which is final then
(`done_iff_of_reaches`).
-/

namespace Statechart

namespace Chart

/-- Whether a node ends the machine: it is a final child of the root. -/
def Ends (chart : Chart) (n : Nat) : Prop :=
  (chart.kind n).isFinal = true ∧ chart.parent? n = some root

instance (chart : Chart) (n : Nat) : Decidable (chart.Ends n) :=
  inferInstanceAs (Decidable (_ ∧ _))

/-- Whether the done flag and the done data fit the active nodes: the flag says whether a node
that ends the machine is active, and there are no data without it. -/
structure Concluded (chart : Chart) (configuration : NodeSet) (done : Bool)
    (data : Option Json) : Prop where
  done_iff : done = true ↔ ∃ n ∈ configuration, chart.Ends n
  data_eq : done = false → data = none

end Chart

namespace Progress

open Chart (root)

variable {chart : Chart} {imps : Implementations} {trigger event : Event} {p p' : Progress}
  {xs : List Step} {n : Nat}

/-- Whether a resolution notes when it is done. -/
def Concluded (chart : Chart) (p : Progress) : Prop :=
  chart.Concluded p.configuration p.done p.doneData

theorem done_complete (p : Progress) {parent : Nat} (data : Option Json) (h : parent ≠ root) :
  (p.complete chart parent data).done = p.done ∧
    (p.complete chart parent data).doneData = p.doneData
  := by
  rw [complete, if_neg h]
  dsimp only
  split
  · exact ⟨rfl, rfl⟩
  · split <;> exact ⟨rfl, rfl⟩

/-- The machine is done after the entry of a node that ends it. -/
theorem done_enterNode (p : Progress) (h : chart.Ends n) :
  (p.enterNode chart imps trigger n).done = true
  := by
  obtain ⟨hfinal, hparent⟩ := h
  cases hkind : chart.kind n with
  | final data =>
    rw [enterNode, hkind, hparent]
    rfl
  | _ =>
    rw [hkind] at hfinal
    cases hfinal

/-- The entry of any other node leaves the machine as it is. -/
theorem done_enterNode_of_not_ends (p : Progress) (h : ¬ chart.Ends n) :
  (p.enterNode chart imps trigger n).done = p.done ∧
    (p.enterNode chart imps trigger n).doneData = p.doneData
  := by
  rw [enterNode]
  split
  · next data parent hkind hparent =>
    apply done_complete
    rintro rfl
    apply h ⟨by rw [hkind]; rfl, hparent⟩
  · exact ⟨rfl, rfl⟩

theorem Concluded.enterNode (h : p.Concluded chart) (n : Nat) :
  (p.enterNode chart imps trigger n).Concluded chart
  := by
  rw [Concluded, (configuration_enterNode p n).1]
  by_cases hends : chart.Ends n
  · rw [done_enterNode p hends]
    constructor
    case done_iff =>
      exact iff_of_true rfl ⟨n, NodeSet.mem_insert.mpr (Or.inl rfl), hends⟩
    case data_eq =>
      intro hfalse
      cases hfalse
  · rw [(done_enterNode_of_not_ends p hends).1, (done_enterNode_of_not_ends p hends).2]
    constructor
    case done_iff =>
      rw [h.done_iff]
      constructor
      · rintro ⟨k, hk, hends'⟩
        exact ⟨k, NodeSet.mem_insert_of_mem hk, hends'⟩
      · rintro ⟨k, hk, hends'⟩
        rcases NodeSet.mem_insert.mp hk with rfl | hk
        · exact absurd hends' hends
        · exact ⟨k, hk, hends'⟩
    case data_eq => exact h.data_eq

theorem Concluded.enter (h : p.Concluded chart) (nodes : NodeSet) :
  (p.enter chart imps trigger nodes).Concluded chart
  := by
  change (nodes.foldl (Progress.enterNode chart imps trigger) p).Concluded chart
  induction nodes generalizing p with
  | nil => exact h
  | cons n nodes ih => apply ih (h.enterNode n)

/-- As long as the machine is not done, exits leave no node active that ends it. -/
theorem Concluded.leave (h : p.Concluded chart) (hdone : p.done = false) (n : Nat) :
  (p.leave chart imps trigger n).Concluded chart
  := by
  constructor
  case done_iff =>
    rw [configuration_leave]
    apply iff_of_false
    · exact Bool.eq_false_iff.mp hdone
    · rintro ⟨k, hk, hends⟩
      rw [h.done_iff.mpr ⟨k, (List.mem_filter.mp hk).1, hends⟩] at hdone
      cases hdone
  case data_eq => exact h.data_eq

theorem Concluded.foldl_leave (h : p.Concluded chart) (hdone : p.done = false)
    (exited : List Nat) :
  (exited.foldl (Progress.leave chart imps trigger) p).Concluded chart
  := by
  induction exited generalizing p with
  | nil => exact h
  | cons n exited ih => apply ih (h.leave hdone n) hdone

theorem Concluded.foldl_act (h : p.Concluded chart) (ts : List Transition) :
  (ts.foldl (fun p t => p.act chart imps trigger t.actions) p).Concluded chart
  := by
  induction ts generalizing p with
  | nil => exact h
  | cons t ts ih => exact ih h

/-- A microstep of a machine that is not done notes whether it ends the machine. -/
theorem Concluded.microstep (h : p.Concluded chart) (hdone : p.done = false)
    (ts : List Transition) :
  (microstep chart imps ts trigger p).Concluded chart
  := by
  rw [Progress.microstep]
  apply Concluded.enter
  apply Concluded.foldl_act
  exact Concluded.foldl_leave
    (p := { p with history := recorded chart p.configuration p.history ts }) h hdone _

theorem Settles.concluded (h : Settles chart imps event p xs p') (hp : p.Concluded chart) :
  p'.Concluded chart
  := by
  apply h.preserves (P := Progress.Concluded chart) _ _ hp
  · exact fun p queue hp => hp
  · exact fun x _ hdone hx => hx.microstep hdone x.transitions

/-! ### Complete nodes -/

/-- Whether a node is complete in a configuration. -/
def completes (chart : Chart) (configuration : NodeSet) (n : Nat) : Bool :=
  isComplete chart configuration chart.depthBound n

variable {configuration : NodeSet}

theorem isComplete_succ_iff {fuel : Nat} :
  isComplete chart configuration (fuel + 1) n = true ↔
    ((chart.kind n).isCompound = true ∧
      ∃ k ∈ chart.children n, (chart.kind k).isFinal = true ∧ k ∈ configuration) ∨
    ((chart.kind n).isParallel = true ∧
      ∀ r ∈ chart.regions n, isComplete chart configuration fuel r = true)
  := by
  rw [isComplete]
  cases chart.kind n with
  | compound initial => simp [Kind.isCompound, Kind.isParallel]
  | parallel => simp [Kind.isCompound, Kind.isParallel]
  | _ => simp [Kind.isCompound, Kind.isParallel]

/-- A compound root is complete exactly if a node that ends the machine is active. -/
theorem completes_root_of_isCompound (wf : chart.WellFormed)
    (hroot : (chart.kind root).isCompound = true) :
  completes chart configuration root = true ↔ ∃ n ∈ configuration, chart.Ends n
  := by
  obtain ⟨fuel, hfuel⟩ := Nat.exists_eq_succ_of_ne_zero (Nat.ne_zero_of_lt wf.root_lt)
  rw [completes, Chart.depthBound, hfuel, isComplete_succ_iff]
  constructor
  · rintro (⟨-, n, hchild, hfinal, hn⟩ | ⟨hparallel, -⟩)
    · exact ⟨n, hn, hfinal, wf.parent_of_mem_children hchild⟩
    · rw [(Kind.plain_of_isCompound hroot).2.1] at hparallel
      cases hparallel
  · rintro ⟨n, hn, hfinal, hparent⟩
    exact Or.inl ⟨hroot, n, wf.mem_children.mpr hparent, hfinal, hn⟩

/-- A final node is never complete itself. -/
theorem isComplete_of_isFinal (fuel : Nat) (h : (chart.kind n).isFinal = true) :
  isComplete chart configuration fuel n = false
  := by
  cases fuel with
  | zero => rfl
  | succ fuel =>
    cases hkind : chart.kind n with
    | final data => rw [isComplete, hkind]
    | _ =>
      rw [hkind] at h
      cases h

/-- No region of a complete parallel node is final. -/
theorem not_final_of_completes {r : Nat} (hn : (chart.kind n).isParallel = true)
    (h : completes chart configuration n = true) (hr : r ∈ chart.regions n) :
  (chart.kind r).isFinal = false
  := by
  rw [completes] at h
  cases hfuel : chart.depthBound with
  | zero =>
    rw [hfuel] at h
    cases h
  | succ fuel =>
    rw [hfuel] at h
    rcases isComplete_succ_iff.mp h with ⟨hcompound, -⟩ | ⟨-, hall⟩
    · rw [(Kind.plain_of_isCompound hcompound).2.1] at hn
      cases hn
    · by_contra hfinal
      have hcomplete := hall r hr
      rw [isComplete_of_isFinal fuel (by simpa using hfinal)] at hcomplete
      cases hcomplete

end Progress

namespace Machine

open Progress Chart

variable {m : Machine} {s s₀ s' : Snapshot} {event : Event} {xs : List Step}

theorem concluded_entry (m : Machine) :
  m.entry.Concluded m.chart
  := by
  apply Progress.Concluded.enter
  constructor
  case done_iff => simp
  case data_eq => exact fun _ => rfl

/-- The first snapshot is done exactly if a node that ends the machine is active. -/
theorem concluded_initial (h : m.initial = .ok s) :
  m.chart.Concluded s.configuration s.done s.doneData
  := by
  obtain ⟨xs, p, hsettles, rfl⟩ := exists_settles_initial h
  apply hsettles.concluded (concluded_entry m)

theorem concluded_transition (h : m.transition s event = .ok s')
    (hs : m.chart.Concluded s.configuration s.done s.doneData) :
  m.chart.Concluded s'.configuration s'.done s'.doneData
  := by
  cases hdone : s.done with
  | true =>
    rw [transition_of_rest (Or.inl hdone)] at h
    cases h
    exact hs
  | false =>
    obtain ⟨xs, hmoves⟩ := exists_moves h
    cases hmoves with
    | rest => exact hs
    | react hsettles =>
      apply hsettles.concluded
      apply Progress.Concluded.microstep _ rfl
      constructor
      case done_iff =>
        rw [hdone] at hs
        exact hs.done_iff
      case data_eq => exact fun _ => rfl

/-- A snapshot that is reached from the first one is done exactly if a node that ends the
machine is active. -/
theorem Reaches.concluded (h : m.Reaches s₀ s) (hinitial : m.initial = .ok s₀) :
  m.chart.Concluded s.configuration s.done s.doneData
  := by
  induction h with
  | refl => apply concluded_initial hinitial
  | step h hstep ih => apply concluded_transition hstep ih

/-- A machine that is done stays as it is. -/
theorem Reaches.of_done (h : m.Reaches s₀ s) (hdone : s₀.done = true) :
  s.done = true ∧ s.configuration = s₀.configuration
  := by
  induction h with
  | refl => exact ⟨hdone, rfl⟩
  | step h hstep ih =>
    rw [transition_of_rest (Or.inl ih.1)] at hstep
    cases hstep
    exact ih

/-- A machine with a final region at its parallel root is done at once. -/
theorem done_of_final_region (wf : m.chart.WellFormed)
    (hroot : (m.chart.kind root).isParallel = true) {r : Nat} (hr : r ∈ m.chart.regions root)
    (hfinal : (m.chart.kind r).isFinal = true) (h : m.initial = .ok s) :
  s.done = true
  := by
  have legal := (lawful_entry wf).legal
  have hentry : m.entry.done = true := by
    apply (concluded_entry m).done_iff.mpr
    exact ⟨r, legal.regions_mem legal.root_mem hroot hr, hfinal, parent_of_mem_regions wf hr⟩
  obtain ⟨xs, p, hsettles, rfl⟩ := exists_settles_initial h
  cases hsettles with
  | done hdone => exact hdone
  | idle hdone hnone =>
    rw [hentry] at hdone
    cases hdone
  | step hdone hnext hrest =>
    rw [hentry] at hdone
    cases hdone

/-- A snapshot that a machine reaches from its first one is done exactly if a final child of
the root is active.  If the root is compound, this is the case exactly if the root is
complete.  If the root is parallel, this is the case exactly if one of its regions is final; the
flag then agrees with whether the root is complete exactly as long as no region is final and
the root is not complete. -/
theorem done_iff_of_reaches {document : Document.Machine} (h : ofDocument document = .ok m.chart)
    (hinitial : m.initial = .ok s₀) (hreaches : m.Reaches s₀ s) :
  (s.done = true ↔ ∃ n ∈ s.configuration, m.chart.Ends n) ∧
  ((m.chart.kind root).isCompound = true →
    (s.done = true ↔ completes m.chart s.configuration root = true)) ∧
  ((m.chart.kind root).isParallel = true →
    (s.done = true ↔ ∃ r ∈ m.chart.regions root, (m.chart.kind r).isFinal = true) ∧
    ((s.done = true ↔ completes m.chart s.configuration root = true) ↔
      (∀ r ∈ m.chart.regions root, (m.chart.kind r).isFinal = false) ∧
        completes m.chart s.configuration root = false))
  := by
  have wf := wellFormed_of_ofDocument h
  have hdone := (hreaches.concluded hinitial).done_iff
  use hdone
  constructor
  · intro hroot
    rw [hdone, completes_root_of_isCompound wf hroot]
  · intro hroot
    have hregion : s.done = true ↔
        ∃ r ∈ m.chart.regions root, (m.chart.kind r).isFinal = true := by
      constructor
      · intro hs
        obtain ⟨n, -, hfinal, hparent⟩ := hdone.mp hs
        refine ⟨n, mem_regions.mpr ⟨wf.mem_children.mpr hparent, ?_⟩, hfinal⟩
        cases hkind : m.chart.kind n with
        | final data => rfl
        | _ =>
          rw [hkind] at hfinal
          cases hfinal
      · rintro ⟨r, hr, hfinal⟩
        apply (hreaches.of_done (done_of_final_region wf hroot hr hfinal hinitial)).1
    use hregion
    cases hcomplete : completes m.chart s.configuration root with
    | true =>
      -- no region is final, so the machine is not done
      have hnone : ¬ s.done = true := by
        rw [hregion]
        rintro ⟨r, hr, hfinal⟩
        rw [not_final_of_completes hroot hcomplete hr] at hfinal
        cases hfinal
      simp [hnone]
    | false =>
      rw [hregion]
      simp

/-- A machine whose state `job` completes with the event `END`, which leads on to a final
state. -/
def finishing : Document.Machine where
  root := .node { initial := some "job" }
    [("job", .node { initial := some "run", onDone := [{ targets := ["finished"] }] }
      [("run", .node { on := [("END", [{ targets := ["end"] }])] } []),
       ("end", .node { type := some .final } [])]),
     ("finished", .node { type := some .final } [])]

theorem done_iff_of_reaches_finishing :
  ∃ chart, ofDocument finishing = .ok chart ∧ (chart.kind root).isCompound = true ∧
    ∃ s₀ s, (ofChart chart).initial = .ok s₀ ∧ (ofChart chart).Reaches s₀ s ∧
      s.configuration = [0, 4] ∧ completes chart s.configuration root = true ∧ s.done = true
  := by
  obtain ⟨chart, h, hp⟩ := Outcome.exists_of_any (x := ofDocument finishing)
    (p := fun chart => (chart.kind root).isCompound = true ∧
      (ofChart chart).initial.toOption.any (fun s₀ =>
        ((ofChart chart).transition s₀ (.bare "END")).toOption.any
          (fun s => s.configuration = [0, 4] ∧ completes chart s.configuration root = true)))
    (by decide +kernel)
  obtain ⟨hroot, hs₀⟩ := of_decide_eq_true hp
  obtain ⟨s₀, hinitial, hs⟩ := Outcome.exists_of_any hs₀
  obtain ⟨s, hstep, hs⟩ := Outcome.exists_of_any hs
  obtain ⟨hconfiguration, hcomplete⟩ := of_decide_eq_true hs
  have hreaches : (ofChart chart).Reaches s₀ s := .step .refl hstep
  use chart, h, hroot, s₀, s, hinitial, hreaches, hconfiguration, hcomplete
  apply ((done_iff_of_reaches (m := ofChart chart) h hinitial hreaches).2.1 hroot).mpr hcomplete

/-- A parallel machine, both of whose regions complete with the event `END`. -/
def unfinished : Document.Machine where
  root := .node { type := some .parallel }
    [("left", .node { initial := some "a" }
      [("a", .node { on := [("END", [{ targets := ["b"] }])] } []),
       ("b", .node { type := some .final } [])]),
     ("right", .node { initial := some "x" }
      [("x", .node { on := [("END", [{ targets := ["y"] }])] } []),
       ("y", .node { type := some .final } [])])]

theorem not_done_unfinished :
  ∃ chart, ofDocument unfinished = .ok chart ∧ (chart.kind root).isParallel = true ∧
    ∃ s₀ s, (ofChart chart).initial = .ok s₀ ∧ (ofChart chart).Reaches s₀ s ∧
      completes chart s.configuration root = true ∧ s.done = false
  := by
  obtain ⟨chart, h, hp⟩ := Outcome.exists_of_any (x := ofDocument unfinished)
    (p := fun chart => (chart.kind root).isParallel = true ∧
      (ofChart chart).initial.toOption.any (fun s₀ =>
        ((ofChart chart).transition s₀ (.bare "END")).toOption.any
          (fun s => completes chart s.configuration root = true ∧ s.done = false)))
    (by decide +kernel)
  obtain ⟨hroot, hs₀⟩ := of_decide_eq_true hp
  obtain ⟨s₀, hinitial, hs⟩ := Outcome.exists_of_any hs₀
  obtain ⟨s, hstep, hs⟩ := Outcome.exists_of_any hs
  obtain ⟨hcomplete, hdone⟩ := of_decide_eq_true hs
  exact ⟨chart, h, hroot, s₀, s, hinitial, .step .refl hstep, hcomplete, hdone⟩

end Machine

end Statechart
