import Statechart.Proofs.Machine.Alternation
import Statechart.Proofs.Machine.Announced

/-!
# Completion of parallel nodes

A parallel node is complete when all its regions are.  A microstep that completes one
announces it exactly once if the completing node is a final child of one of its regions, and
not at all if that node lies deeper (`announced_of_completed`).  What is announced is complete
in the end, unless a final region of the node is entered before the other regions are finished
(`finished_of_announced`).
-/

namespace Statechart

namespace Chart

/-- Whether a node is finished: an active final node, a compound node with an active final
child, or a parallel node whose regions are all finished. -/
inductive Finished (chart : Chart) (configuration : NodeSet) : Nat → Prop where
  | final {n} (hk : (chart.kind n).isFinal = true) (hn : n ∈ configuration) :
      Finished chart configuration n
  | compound {n f} (hk : (chart.kind n).isCompound = true) (hf : chart.parent? f = some n)
      (hfinal : (chart.kind f).isFinal = true) (hactive : f ∈ configuration) :
      Finished chart configuration n
  | parallel {n} (hk : (chart.kind n).isParallel = true)
      (hall : ∀ r ∈ chart.regions n, Finished chart configuration r) :
      Finished chart configuration n

/-- Whether all regions of a node are finished. -/
def RegionsFinished (chart : Chart) (configuration : NodeSet) (n : Nat) : Prop :=
  ∀ r ∈ chart.regions n, chart.Finished configuration r

theorem lt_of_isParallel {chart : Chart} {n : Nat} (hn : (chart.kind n).isParallel = true) :
  n < chart.nodes.length
  := by
  by_contra hlt
  rw [kind_of_not_lt hlt] at hn
  cases hn

end Chart

namespace Progress

open Chart (root mem_regions entering_increasing)

variable {chart : Chart} {imps : Implementations} {x : Step} {c : NodeSet} {nodes : List Nat}
  {n r f k fuel : Nat}

theorem finished_of_isComplete (wf : chart.WellFormed)
    (h : isComplete chart c fuel n = true) :
  chart.Finished c n
  := by
  induction fuel generalizing n with
  | zero => cases h
  | succ fuel ih =>
    rcases isComplete_succ_iff.mp h with ⟨hcompound, k, hchild, hfinal, hactive⟩ | ⟨hparallel, hall⟩
    · apply Chart.Finished.compound hcompound (wf.parent_of_mem_children hchild) hfinal hactive
    · apply Chart.Finished.parallel hparallel (fun r hr => ih (hall r hr))

/-! ### Finished regions -/

/-- A region with a final child is complete only if it is compound and has an active final
child. -/
theorem exists_final_of_finishes (wf : chart.WellFormed) (h : regionsComplete chart c n = true)
    (hk : (chart.kind k).isFinal = true) (hr : chart.parent? k = some r)
    (hn : chart.parent? r = some n) :
  (chart.kind r).isCompound = true ∧ r ∈ chart.regions n ∧
    ∃ f ∈ c, (chart.kind f).isFinal = true ∧ chart.parent? f = some r
  := by
  have hinner := wf.inner (wf.mem_children.mpr hr)
  have hregion : r ∈ chart.regions n := by
    apply mem_regions.mpr ⟨wf.mem_children.mpr hn, _⟩
    rcases hinner with hinner | hinner
    · apply (Kind.plain_of_isCompound hinner).2.2
    · apply (Kind.plain_of_isParallel hinner).2.2
  have hfinished := finished_of_isComplete wf (List.all_eq_true.mp h r hregion)
  cases hfinished with
  | final hfinal hactive =>
    rw [not_final_of_regionsComplete h hregion] at hfinal
    cases hfinal
  | @compound _ f hcompound hf hfinal hactive =>
    exact ⟨hcompound, hregion, f, hactive, hfinal, hf⟩
  | parallel hparallel hall =>
    have hfinal := not_final_of_completes hparallel (List.all_eq_true.mp h r hregion)
      (mem_regions_of_isFinal wf hk hr)
    rw [hk] at hfinal
    cases hfinal

/-- The completeness of an inactive node does not depend on the active nodes. -/
theorem isComplete_of_inactive (wf : chart.WellFormed) (legal : chart.Legal c) (hn : n ∉ c)
    (h : isComplete chart c fuel n = true) :
  isComplete chart [] fuel n = true
  := by
  induction fuel generalizing n with
  | zero => cases h
  | succ fuel ih =>
    rcases isComplete_succ_iff.mp h with ⟨-, k, hchild, -, hactive⟩ | ⟨hparallel, hall⟩
    · exact absurd (legal.parent_mem hactive (wf.parent_of_mem_children hchild)) hn
    · apply isComplete_succ_iff.mpr (Or.inr ⟨hparallel, _⟩)
      intro r hr
      apply ih _ (hall r hr)
      exact fun hactive => hn (legal.parent_mem hactive (Chart.parent_of_mem_regions wf hr))

/-- If the regions of a node, one of them compound, are complete after a microstep, but were
not before, then one of the entered nodes completes them. -/
theorem exists_completing_of_completed (wf : chart.WellFormed)
    (legal : chart.Legal x.before.configuration) (hr : r ∈ chart.regions n)
    (hcompound : (chart.kind r).isCompound = true)
    (hafter : regionsComplete chart (x.after chart imps).configuration n = true)
    (hbefore : n ∉ x.before.configuration ∨
      regionsComplete chart x.before.configuration n = false) :
  ∃ before f after, x.before.entering chart x.transitions = before ++ f :: after ∧
    Completing chart (x.remaining chart) before f n
  := by
  rw [configuration_after] at hafter
  apply exists_completing _ hafter
  cases hremaining : regionsComplete chart (x.remaining chart) n with
  | false => rfl
  | true =>
    have hcomplete : regionsComplete chart x.before.configuration n = true :=
      regionsComplete_mono (fun k hk => (List.mem_filter.mp hk).1) hremaining
    rcases hbefore with hinactive | hincomplete
    · -- an inactive compound region has no active final child
      have hnot : r ∉ x.before.configuration := fun hactive =>
        hinactive (legal.parent_mem hactive (Chart.parent_of_mem_regions wf hr))
      have hempty := finished_of_isComplete wf
        (isComplete_of_inactive wf legal hnot (List.all_eq_true.mp hcomplete r hr))
      cases hempty with
      | final hfinal hactive => cases hactive
      | compound hk hf hfinal hactive => cases hactive
      | parallel hk hall =>
        rw [(Kind.plain_of_isCompound hcompound).2.1] at hk
        cases hk
    · rw [hcomplete] at hincomplete
      cases hincomplete

/-- A microstep that ends in a legal configuration, and enters no node that stays active,
finishes no region after the completing node. -/
theorem not_finishes_after (wf : chart.WellFormed) {before after : List Nat}
    (hentering : x.before.entering chart x.transitions = before ++ f :: after)
    (h : Completing chart (x.remaining chart) before f n)
    (legal : chart.Legal (x.after chart imps).configuration) (hfresh : x.Fresh chart)
    (hk : k ∈ after) :
  ¬ chart.Finishes n k
  := by
  rintro ⟨hfinal, r, hr, hn⟩
  obtain ⟨hcompound, -, k', hk', -, hr'⟩ :=
    exists_final_of_finishes wf h.complete hfinal hr hn
  rw [List.append_cons] at hentering
  have hincreasing : (before ++ [f] ++ after).Pairwise (· < ·) := by
    rw [← hentering]
    apply entering_increasing
  have hentered : k ∈ x.before.entering chart x.transitions := by
    rw [hentering]
    apply List.mem_append_right _ hk
  have hactive : k ∈ (x.after chart imps).configuration := by
    rw [configuration_after]
    apply mem_withNodes.mpr (Or.inr hentered)
  have hactive' : k' ∈ (x.after chart imps).configuration := by
    rw [configuration_after, hentering]
    apply mem_withNodes.mpr ((mem_withNodes.mp hk').imp_right (List.mem_append_left after))
  -- a compound node has one active child only, so `k` is active by then and entered again
  have heq : k = k' :=
    legal.child_unique (legal.parent_mem hactive hr) hcompound hactive hr hactive' hr'
  subst heq
  rcases mem_withNodes.mp hk' with hremains | hbefore
  · rw [Step.remaining, List.mem_filter, decide_eq_true_eq] at hremains
    apply hfresh k hentered hremains
  · apply Nat.lt_irrefl k ((List.pairwise_append.mp hincreasing).2.2 k hbefore k hk)

end Progress

namespace Machine

open Progress Chart

variable {m : Machine} {n : Nat}

section

variable {document : Document.Machine} {x : Step} {before after : List Nat} {f : Nat}

/-- The announcements of a parallel node in a microstep. -/
theorem announcements_raised (h : ofDocument document = .ok m.chart)
    (hn : (m.chart.kind n).isParallel = true) (x : Step) :
  m.chart.announcements (x.raised m.chart m.implementations) n =
    (announced m.chart (x.remaining m.chart) (x.before.entering m.chart x.transitions)).count n
  := by
  apply announcements_eq_count h (completed_raised x) (lt_of_isParallel hn)

/-- A microstep that completes a parallel node without a compound region does not announce
it. -/
theorem announcements_eq_zero (h : ofDocument document = .ok m.chart)
    (hn : (m.chart.kind n).isParallel = true)
    (hafter : regionsComplete m.chart (x.after m.chart m.implementations).configuration n = true)
    (hnone : ∀ r ∈ m.chart.regions n, (m.chart.kind r).isCompound = false) :
  m.chart.announcements (x.raised m.chart m.implementations) n = 0
  := by
  have wf := wellFormed_of_ofDocument h
  rw [announcements_raised h hn, List.count_eq_zero]
  intro hmem
  rw [configuration_after] at hafter
  rcases mem_announced_cases wf hn hmem with ⟨-, f, -, hregion⟩ | ⟨⟨f, -, hfinal, r, hr, hrn⟩, -⟩
  · apply not_finalRegion_of_complete wf hafter f hregion
  · obtain ⟨hcompound, hregion, -⟩ := exists_final_of_finishes wf hafter hfinal hr hrn
    rw [hnone r hregion] at hcompound
    cases hcompound

/-- A microstep that completes a parallel node announces it for each region that it finishes
from the completing node on. -/
theorem announcements_of_completing (h : ofDocument document = .ok m.chart)
    (hn : (m.chart.kind n).isParallel = true)
    (hentering : x.before.entering m.chart x.transitions = before ++ f :: after)
    (hcompleting : Completing m.chart (x.remaining m.chart) before f n) :
  m.chart.announcements (x.raised m.chart m.implementations) n =
    (f :: after).countP (fun k => decide (m.chart.Finishes n k))
  := by
  rw [announcements_raised h hn, hentering,
    count_announced (wellFormed_of_ofDocument h) hn hcompleting]

/-- A microstep that ends in a legal configuration, and enters no node that stays active,
announces a node only by the completing node. -/
theorem announcements_of_legal (h : ofDocument document = .ok m.chart)
    (hn : (m.chart.kind n).isParallel = true)
    (hentering : x.before.entering m.chart x.transitions = before ++ f :: after)
    (hcompleting : Completing m.chart (x.remaining m.chart) before f n)
    (legal : m.chart.Legal (x.after m.chart m.implementations).configuration)
    (hfresh : x.Fresh m.chart) :
  m.chart.announcements (x.raised m.chart m.implementations) n =
    if m.chart.Finishes n f then 1 else 0
  := by
  have hnone : after.countP (fun k => decide (m.chart.Finishes n k)) = 0 := by
    apply List.countP_eq_zero.mpr
    intro k hk
    rw [decide_eq_true_eq]
    apply not_finishes_after (wellFormed_of_ofDocument h) hentering hcompleting legal hfresh hk
  rw [announcements_of_completing h hn hentering hcompleting, List.countP_cons, hnone,
    Nat.zero_add]
  simp

end

/-- In a compiled chart let a microstep start at a legal configuration, and let all regions of a
parallel node be complete where it ends, while before it the node was inactive or a region was
not complete.  What the microstep raises joins the queue.  It announces the node never if no
region is compound.  Else one of the entered nodes completes the regions, a final child of a
compound node within a region, and the node is announced once for each final child of a
region that is entered from the completing node on.  If the microstep ends in a legal
configuration and enters no node that stays active, the node is announced exactly once if
the completing node is a child of a region, and never if it lies deeper; so it is announced
exactly once if all regions are compound. -/
theorem announced_of_completed {document : Document.Machine}
    (h : ofDocument document = .ok m.chart) {x : Step}
    (legal : m.chart.Legal x.before.configuration) (hn : (m.chart.kind n).isParallel = true)
    (hafter : regionsComplete m.chart (x.after m.chart m.implementations).configuration n = true)
    (hbefore : n ∉ x.before.configuration ∨
      regionsComplete m.chart x.before.configuration n = false) :
  (x.after m.chart m.implementations).queue = x.before.queue ++ x.before.collected.raised ++
    (x.raised m.chart m.implementations).map (Raising.event m.chart) ∧
  ((∀ r ∈ m.chart.regions n, (m.chart.kind r).isCompound = false) →
    m.chart.announcements (x.raised m.chart m.implementations) n = 0) ∧
  ((∃ r ∈ m.chart.regions n, (m.chart.kind r).isCompound = true) →
    ∃ before f after, x.before.entering m.chart x.transitions = before ++ f :: after ∧
      Completing m.chart (x.remaining m.chart) before f n ∧
      (∃ r ∈ m.chart.regions n, ∃ q, m.chart.parent? f = some q ∧ m.chart.Within q r ∧
        (m.chart.kind f).isFinal = true ∧ (m.chart.kind q).isCompound = true) ∧
      m.chart.announcements (x.raised m.chart m.implementations) n =
        (f :: after).countP (fun k => decide (m.chart.Finishes n k)) ∧
      (m.chart.Legal (x.after m.chart m.implementations).configuration → x.Fresh m.chart →
        (m.chart.announcements (x.raised m.chart m.implementations) n = 1 ↔
          m.chart.Finishes n f) ∧
        (m.chart.announcements (x.raised m.chart m.implementations) n = 0 ↔
          ¬ m.chart.Finishes n f))) ∧
  ((∀ r ∈ m.chart.regions n, (m.chart.kind r).isCompound = true) → m.chart.regions n ≠ [] →
    m.chart.Legal (x.after m.chart m.implementations).configuration → x.Fresh m.chart →
    m.chart.announcements (x.raised m.chart m.implementations) n = 1)
  := by
  have wf := wellFormed_of_ofDocument h
  have hexists : ∀ r ∈ m.chart.regions n, (m.chart.kind r).isCompound = true → _ :=
    fun r hr hcompound =>
      exists_completing_of_completed wf legal hr hcompound hafter hbefore
  and_intros
  · apply x.queue_after.1
  · apply announcements_eq_zero h hn hafter
  · rintro ⟨r, hr, hcompound⟩
    obtain ⟨before, f, after, hentering, hcompleting⟩ := hexists r hr hcompound
    obtain ⟨hfinal, r', hr', q, hq, hwithin, hcompound', -⟩ := hcompleting.final wf
    use before, f, after, hentering, hcompleting, ⟨r', hr', q, hq, hwithin, hfinal, hcompound'⟩,
      announcements_of_completing h hn hentering hcompleting
    intro legal' hfresh
    rw [announcements_of_legal h hn hentering hcompleting legal' hfresh]
    split
    · next hfinishes => simp [hfinishes]
    · next hfinishes => simp [hfinishes]
  · intro hall hne legal' hfresh
    obtain ⟨r, hr⟩ := List.exists_mem_of_ne_nil _ hne
    obtain ⟨before, f, after, hentering, hcompleting⟩ := hexists r hr (hall r hr)
    obtain ⟨hfinal, r', hr', q, hq, -, -, heq⟩ := hcompleting.final wf
    rw [announcements_of_legal h hn hentering hcompleting legal' hfresh, if_pos]
    rw [heq (hall r' hr')] at hq
    exact ⟨hfinal, r', hq, parent_of_mem_regions wf hr'⟩

/-- A parallel state with a parallel region, whose own region ends with the event `FIRST`, and a
region that ends with the event `LAST`. -/
def ending : Document.Machine where
  root := .node { initial := some "p" }
    [("p", .node { type := some .parallel }
      [("q", .node { type := some .parallel }
        [("r", .node { initial := some "a" }
          [("a", .node { on := [("FIRST", [{ targets := ["f"] }])] } []),
           ("f", .node { type := some .final } [])])]),
       ("s", .node { initial := some "x" }
        [("x", .node { on := [("LAST", [{ targets := ["y"] }])] } []),
         ("y", .node { type := some .final } [])])])]

theorem announced_of_completed_ending :
  ∃ chart, ofDocument ending = .ok chart ∧ (chart.kind 1).isParallel = true ∧
    (chart.kind 2).isParallel = true ∧ 2 ∈ chart.regions 1 ∧
    ∃ x : Step, chart.Legal x.before.configuration ∧
      regionsComplete chart x.before.configuration 1 = false ∧
      regionsComplete chart (x.after chart {}).configuration 1 = true ∧
      chart.announcements (x.raised chart {}) 1 = 1
  := by
  obtain ⟨chart, h, hp⟩ := Outcome.exists_of_any (x := ofDocument ending)
    (p := fun chart => ((chart.kind 1).isParallel = true ∧ (chart.kind 2).isParallel = true ∧
      2 ∈ chart.regions 1 ∧ 6 ∈ chart.regions 1 ∧ (chart.kind 6).isCompound = true ∧
      chart.Finishes 1 8) ∧
      (ofChart chart).initial.toOption.any (fun s₀ =>
        ((ofChart chart).transition s₀ (.bare "FIRST")).toOption.any (fun s =>
          let x := (ofChart chart).reaction s (.bare "LAST")
          chart.Legal x.before.configuration ∧ 8 ∉ x.before.configuration ∧
          regionsComplete chart x.before.configuration 1 = false ∧
          x.before.entering chart x.transitions = [8] ∧
          chart.Legal (x.after chart {}).configuration ∧
          regionsComplete chart (x.after chart {}).configuration 1 = true)))
    (by decide +kernel)
  obtain ⟨⟨hn, hq, hregion, hregion', hcompound, hfinishes⟩, hs₀⟩ := of_decide_eq_true hp
  obtain ⟨s₀, -, hs⟩ := Outcome.exists_of_any hs₀
  obtain ⟨s, -, hs⟩ := Outcome.exists_of_any hs
  obtain ⟨legal, hinactive, hbefore, hentering, legal', hafter⟩ := of_decide_eq_true hs
  use chart, h, hn, hq, hregion, (ofChart chart).reaction s (.bare "LAST"), legal, hbefore, hafter
  obtain ⟨before, f, after, hsplit, -, -, -, hiff⟩ :=
    (announced_of_completed (m := ofChart chart) h legal hn hafter (Or.inr hbefore)).2.2.1
      ⟨6, hregion', hcompound⟩
  have hf : f = 8 := by
    have hmem : f ∈ before ++ f :: after := List.mem_append_right before List.mem_cons_self
    rwa [← hentering.symm.trans hsplit, List.mem_singleton] at hmem
  have hfresh : ((ofChart chart).reaction s (.bare "LAST")).Fresh chart := by
    intro k hk
    rw [hentering, List.mem_singleton] at hk
    rw [hk]
    exact fun hremains => hinactive hremains.1
  apply (hiff legal' hfresh).1.mpr
  rwa [hf]

/-- A parallel state, whose region is a parallel state with a region that ends with the event
`GO`. -/
def nested : Document.Machine where
  root := .node { initial := some "p" }
    [("p", .node { type := some .parallel, onDone := [{ targets := ["end"] }] }
      [("q", .node { type := some .parallel }
        [("r", .node { initial := some "a" }
          [("a", .node { on := [("GO", [{ targets := ["f"] }])] } []),
           ("f", .node { type := some .final } [])])])]),
     ("end", .node {} [])]

theorem not_announced_nested :
  ∃ chart, ofDocument nested = .ok chart ∧ (chart.kind 1).isParallel = true ∧
    ∃ s s', (ofChart chart).initial = .ok s ∧
      (ofChart chart).transition s (.bare "GO") = .ok s' ∧
      (let x := (ofChart chart).reaction s (.bare "GO")
       chart.Legal x.before.configuration ∧
       regionsComplete chart x.before.configuration 1 = false ∧
       1 ∈ (x.after chart {}).configuration ∧
       regionsComplete chart (x.after chart {}).configuration 1 = true ∧
       chart.announcements (x.raised chart {}) 1 = 0) ∧
      s'.configuration = [0, 1, 2, 3, 5]
  := by
  obtain ⟨chart, h, hp⟩ := Outcome.exists_of_any (x := ofDocument nested)
    (p := fun chart => (chart.kind 1).isParallel = true ∧
      (ofChart chart).initial.toOption.any (fun s =>
        (let x := (ofChart chart).reaction s (.bare "GO")
         chart.Legal x.before.configuration ∧
         regionsComplete chart x.before.configuration 1 = false ∧
         1 ∈ (x.after chart {}).configuration ∧
         regionsComplete chart (x.after chart {}).configuration 1 = true ∧
         chart.announcements (x.raised chart {}) 1 = 0) ∧
        ((ofChart chart).transition s (.bare "GO")).toOption.any
          (fun s' => s'.configuration = [0, 1, 2, 3, 5])))
    (by decide +kernel)
  obtain ⟨hn, hs⟩ := of_decide_eq_true hp
  obtain ⟨s, hinitial, hs⟩ := Outcome.exists_of_any hs
  obtain ⟨hx, hs'⟩ := of_decide_eq_true hs
  obtain ⟨s', hstep, hconfiguration⟩ := Outcome.exists_of_any hs'
  use chart, h, hn, s, s', hinitial, hstep, hx
  apply of_decide_eq_true hconfiguration

/-! ### What is announced -/

/-- When nodes are entered, an announced parallel node has finished regions in the end exactly
if an entered final region of it finds the others finished. -/
theorem finished_of_mem_announced_iff (wf : m.chart.WellFormed)
    (hn : (m.chart.kind n).isParallel = true) (c : NodeSet) (nodes : List Nat) :
  (n ∈ announced m.chart c nodes → m.chart.RegionsFinished (withNodes c nodes) n) ↔
    (n ≠ root → (∃ f ∈ nodes, m.chart.FinalRegion n f) →
      m.chart.RegionsFinished (withNodes c nodes) n)
  := by
  constructor
  · rintro hall hroot ⟨f, hf, hregion⟩
    apply hall (mem_announced_of_finalRegion wf hn hroot hf hregion)
  · intro hall hmem
    rcases mem_announced_cases wf hn hmem with ⟨hroot, hregion⟩ | ⟨-, hcomplete⟩
    · apply hall hroot hregion
    · exact fun r hr => finished_of_isComplete wf (List.all_eq_true.mp hcomplete r hr)

/-- In a compiled chart, what a microstep raises joins the queue.  If it announces a parallel
node, all regions of the node are finished where the microstep ends, exactly if this is so
whenever the microstep enters a final region of the node and the node is not the root; so it
always is if no region is final.  The same holds of the entry of the default configuration. -/
theorem finished_of_announced {document : Document.Machine}
    (h : ofDocument document = .ok m.chart) (hn : (m.chart.kind n).isParallel = true) :
  (∀ x : Step,
    (x.after m.chart m.implementations).queue = x.before.queue ++ x.before.collected.raised ++
      (x.raised m.chart m.implementations).map (Raising.event m.chart) ∧
    ((0 < m.chart.announcements (x.raised m.chart m.implementations) n →
        m.chart.RegionsFinished (x.after m.chart m.implementations).configuration n) ↔
      (n ≠ root → (∃ f ∈ x.before.entering m.chart x.transitions, m.chart.FinalRegion n f) →
        m.chart.RegionsFinished (x.after m.chart m.implementations).configuration n))) ∧
  m.entry.queue = m.entryRaised.map (Raising.event m.chart) ∧
  ((0 < m.chart.announcements m.entryRaised n →
      m.chart.RegionsFinished m.entry.configuration n) ↔
    (n ≠ root → (∃ f ∈ m.chart.addDefaults root [], m.chart.FinalRegion n f) →
      m.chart.RegionsFinished m.entry.configuration n))
  := by
  have wf := wellFormed_of_ofDocument h
  and_intros
  · intro x
    use x.queue_after.1
    rw [announcements_raised h hn, List.count_pos_iff, configuration_after]
    apply finished_of_mem_announced_iff wf hn
  · apply m.queue_entry.1
  · rw [entryRaised, announcements_eq_count h (completed_arrivals _ _) (lt_of_isParallel hn),
      List.count_pos_iff, entry, (configuration_enter _ _).1]
    apply finished_of_mem_announced_iff wf hn

/-- A parallel state, both of whose regions end with the event `END`. -/
def joining : Document.Machine where
  root := .node { initial := some "p" }
    [("p", .node { type := some .parallel }
      [("left", .node { initial := some "a" }
        [("a", .node { on := [("END", [{ targets := ["b"] }])] } []),
         ("b", .node { type := some .final } [])]),
       ("right", .node { initial := some "x" }
        [("x", .node { on := [("END", [{ targets := ["y"] }])] } []),
         ("y", .node { type := some .final } [])])])]

theorem finished_of_announced_joining :
  ∃ chart, ofDocument joining = .ok chart ∧ (chart.kind 1).isParallel = true ∧
    ∃ x : Step, chart.announcements (x.raised chart {}) 1 = 1 ∧
      chart.RegionsFinished (x.after chart {}).configuration 1
  := by
  obtain ⟨chart, h, hp⟩ := Outcome.exists_of_any (x := ofDocument joining)
    (p := fun chart => (chart.kind 1).isParallel = true ∧
      (ofChart chart).initial.toOption.any (fun s =>
        let x := (ofChart chart).reaction s (.bare "END")
        (∀ f ∈ x.before.entering chart x.transitions, ¬ chart.FinalRegion 1 f) ∧
        chart.announcements (x.raised chart {}) 1 = 1))
    (by decide +kernel)
  obtain ⟨hn, hs⟩ := of_decide_eq_true hp
  obtain ⟨s, -, hs⟩ := Outcome.exists_of_any hs
  obtain ⟨hnone, hcount⟩ := of_decide_eq_true hs
  use chart, h, hn, (ofChart chart).reaction s (.bare "END"), hcount
  apply ((finished_of_announced (m := ofChart chart) h hn).1 _).2.mpr
  · rintro - ⟨f, hf, hregion⟩
    exact absurd hregion (hnone f hf)
  · apply Nat.lt_of_lt_of_eq Nat.zero_lt_one hcount.symm

/-- A parallel state that the event `GO` enters, with a final region and one that never ends. -/
def hasty : Document.Machine where
  root := .node { initial := some "s" }
    [("s", .node { on := [("GO", [{ targets := ["p"] }])] } []),
     ("p", .node { type := some .parallel, onDone := [{ targets := ["end"] }] }
      [("f", .node { type := some .final } []),
       ("r", .node { initial := some "a" } [("a", .node {} [])])]),
     ("end", .node {} [])]

theorem not_finished_hasty :
  ∃ chart, ofDocument hasty = .ok chart ∧ (chart.kind 2).isParallel = true ∧
    ∃ s s', (ofChart chart).initial = .ok s ∧
      (ofChart chart).transition s (.bare "GO") = .ok s' ∧
      (let x := (ofChart chart).reaction s (.bare "GO")
       chart.announcements (x.raised chart {}) 2 = 1 ∧
       ¬ chart.RegionsFinished (x.after chart {}).configuration 2) ∧
      s'.configuration = [0, 6]
  := by
  obtain ⟨chart, h, hp⟩ := Outcome.exists_of_any (x := ofDocument hasty)
    (p := fun chart => ((chart.kind 2).isParallel = true ∧ 4 ∈ chart.regions 2 ∧
      (chart.kind 4).isCompound = true ∧ (chart.kind 4).isFinal = false ∧
      ∀ k ∈ chart.children 4, (chart.kind k).isFinal = false) ∧
      (ofChart chart).initial.toOption.any (fun s =>
        (let x := (ofChart chart).reaction s (.bare "GO")
         chart.announcements (x.raised chart {}) 2 = 1) ∧
        ((ofChart chart).transition s (.bare "GO")).toOption.any
          (fun s' => s'.configuration = [0, 6])))
    (by decide +kernel)
  obtain ⟨⟨hn, hregion, hcompound, hplain, hchildren⟩, hs⟩ := of_decide_eq_true hp
  obtain ⟨s, hinitial, hs⟩ := Outcome.exists_of_any hs
  obtain ⟨hcount, hs'⟩ := of_decide_eq_true hs
  obtain ⟨s', hstep, hconfiguration⟩ := Outcome.exists_of_any hs'
  refine ⟨chart, h, hn, s, s', hinitial, hstep, ⟨hcount, ?_⟩, of_decide_eq_true hconfiguration⟩
  intro hfinished
  cases hfinished 4 hregion with
  | final hk =>
    rw [hplain] at hk
    cases hk
  | compound hk hf hfinal =>
    rw [hchildren _ ((wellFormed_of_ofDocument h).mem_children.mpr hf)] at hfinal
    cases hfinal
  | parallel hk =>
    rw [(Kind.plain_of_isCompound hcompound).2.1] at hk
    cases hk

end Machine

end Statechart
