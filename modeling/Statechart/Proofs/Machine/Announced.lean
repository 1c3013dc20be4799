import Statechart.Proofs.Chart.Identity
import Statechart.Proofs.Machine.Completion
import Statechart.Proofs.Machine.Raised

/-!
# Announced nodes

The nodes whose completion is announced while nodes are entered: the parent of an entered
final node, and the parallel node above it if all its regions are complete by then.  A
parallel node that is complete in the end is announced once for each final child of its
regions that is entered from the node on that completes it (`count_announced`).
-/

namespace Statechart

/-- How often a completion of the node is announced. -/
def Chart.announcements (chart : Chart) (raised : List Raising) (n : Nat) : Nat :=
  raised.countP (fun r =>
    r.completed?.isSome && (r.event chart).name == Event.doneState ++ chart.nodeId n)

namespace Progress

open Chart (root lt_of_parent wellFormed_of_ofDocument mem_regions)

variable {chart : Chart} {imps : Implementations} {trigger : Event} {p : Progress}
  {c c' : NodeSet} {nodes : List Nat} {n q f k fuel : Nat}

/-- The nodes whose completion the entry of a node announces. -/
def announcedBy (chart : Chart) (configuration : NodeSet) (n : Nat) : List Nat :=
  match (chart.kind n).isFinal, chart.parent? n with
  | true, some parent =>
    if parent = root then [] else parent :: completedAbove chart configuration parent
  | _, _ => []

/-- The nodes whose completion the entry of nodes announces, one after the other. -/
def announced (chart : Chart) : NodeSet → List Nat → List Nat
  | _, [] => []
  | configuration, n :: nodes =>
    announcedBy chart (NodeSet.insert n configuration) n ++
      announced chart (NodeSet.insert n configuration) nodes

/-- The active nodes after further ones are entered. -/
def withNodes (configuration : NodeSet) (nodes : List Nat) : NodeSet :=
  nodes.foldl (fun s n => NodeSet.insert n s) configuration

theorem withNodes_concat (c : NodeSet) (nodes : List Nat) (n : Nat) :
  withNodes c (nodes ++ [n]) = NodeSet.insert n (withNodes c nodes)
  := List.foldl_concat _ _ _ _

theorem mem_withNodes :
  k ∈ withNodes c nodes ↔ k ∈ c ∨ k ∈ nodes
  := NodeSet.mem_foldl_insert nodes

/-! ### Announcements -/

theorem completed_completions (parent : Nat) (data : Option Json) :
  (completions chart c parent data).filterMap Raising.completed? =
    if parent = root then [] else parent :: completedAbove chart c parent
  := by
  rw [completions]
  split
  · rfl
  · rw [List.filterMap_cons, List.filterMap_map]
    exact congrArg (List.cons parent) List.filterMap_some

theorem completed_entryRaisings (p : Progress) (n : Nat) :
  (p.entryRaisings chart imps trigger n).filterMap Raising.completed? =
    announcedBy chart (NodeSet.insert n p.configuration) n
  := by
  rw [entryRaisings, List.filterMap_append, Collection.completed_raisings, List.nil_append,
    announcedBy]
  cases chart.kind n with
  | final data =>
    cases chart.parent? n with
    | none => rfl
    | some parent => apply completed_completions
  | _ => rfl

/-- The nodes that are complete by what the entries raise are those that are announced. -/
theorem completed_arrivals (p : Progress) (nodes : List Nat) :
  (p.arrivals chart imps trigger nodes).filterMap Raising.completed? =
    announced chart p.configuration nodes
  := by
  induction nodes generalizing p with
  | nil => rfl
  | cons n nodes ih =>
    rw [arrivals, List.filterMap_append, completed_entryRaisings, ih,
      (configuration_enterNode p n).1]
    rfl

/-- The active nodes that a microstep does not exit. -/
def Step.remaining (chart : Chart) (x : Step) : NodeSet :=
  x.before.configuration.filter (fun n => n ∉ x.before.exiting chart x.transitions)

theorem completed_raised (x : Step) :
  (x.raised chart imps).filterMap Raising.completed? =
    announced chart (x.remaining chart) (x.before.entering chart x.transitions)
  := by
  rw [Step.raised, List.filterMap_append, Collection.completed_raisings, List.nil_append,
    completed_arrivals, configuration_arriving]
  rfl

theorem configuration_after (x : Step) :
  (x.after chart imps).configuration =
    withNodes (x.remaining chart) (x.before.entering chart x.transitions)
  := by
  rw [Step.after, microstep_eq_enter, (configuration_enter _ _).1, configuration_arriving]
  rfl

theorem lt_of_mem_announcedBy (wf : chart.WellFormed) (h : k ∈ announcedBy chart c n) :
  k < chart.nodes.length
  := by
  rw [announcedBy] at h
  split at h
  · next parent hfinal hparent =>
    have hlt : parent < chart.nodes.length :=
      Nat.lt_trans (wf.parent_lt hparent) (lt_of_parent hparent)
    split at h
    · cases h
    · rcases List.mem_cons.mp h with rfl | h
      · exact hlt
      · have habove := (List.mem_filter.mp h).1
        rw [Option.mem_toList] at habove
        exact Nat.lt_trans (wf.parent_lt habove) hlt
  · cases h

theorem lt_of_mem_announced (wf : chart.WellFormed) (h : k ∈ announced chart c nodes) :
  k < chart.nodes.length
  := by
  induction nodes generalizing c with
  | nil => cases h
  | cons n nodes ih =>
    rcases List.mem_append.mp h with h | h
    · apply lt_of_mem_announcedBy wf h
    · apply ih h

/-- Since ids are distinct, the completion events of a node are counted by its id. -/
theorem announcements_eq_count {document : Document.Machine}
    (h : Chart.ofDocument document = .ok chart) {raised : List Raising}
    (hraised : raised.filterMap Raising.completed? = announced chart c nodes)
    (hn : n < chart.nodes.length) :
  chart.announcements raised n = (announced chart c nodes).count n
  := by
  have hlt : ∀ k ∈ raised.filterMap Raising.completed?, k < chart.nodes.length := by
    rw [hraised]
    exact fun k hk => lt_of_mem_announced (wellFormed_of_ofDocument h) hk
  rw [← hraised, Chart.announcements]
  clear hraised
  induction raised with
  | nil => rfl
  | cons r raised ih =>
    cases r with
    | action event => apply ih hlt
    | failure type reason => apply ih hlt
    | completion k data =>
      have hcons : (Raising.completion k data :: raised).filterMap Raising.completed? =
          k :: raised.filterMap Raising.completed? := rfl
      rw [hcons] at hlt ⊢
      obtain ⟨hk, hlt⟩ := List.forall_mem_cons.mp hlt
      rw [List.countP_cons, List.count_cons, ih hlt]
      congr 2
      have hname : Event.doneState ++ chart.nodeId k = Event.doneState ++ chart.nodeId n ↔
          k = n := by
        rw [String.append_right_inj]
        exact ⟨Chart.eq_of_nodeId h hk hn, congrArg chart.nodeId⟩
      simpa [Raising.completed?, Raising.event, Event.stateDone] using hname

/-! ### Complete regions -/

/-- A node that is complete stays so when further nodes are active. -/
theorem isComplete_mono (hsub : ∀ k ∈ c, k ∈ c') (h : isComplete chart c fuel n = true) :
  isComplete chart c' fuel n = true
  := by
  induction fuel generalizing n with
  | zero => cases h
  | succ fuel ih =>
    apply isComplete_succ_iff.mpr
    rcases isComplete_succ_iff.mp h with ⟨hcompound, k, hchild, hfinal, hactive⟩ | ⟨hparallel, hall⟩
    · exact Or.inl ⟨hcompound, k, hchild, hfinal, hsub k hactive⟩
    · exact Or.inr ⟨hparallel, fun r hr => ih (hall r hr)⟩

theorem regionsComplete_mono (hsub : ∀ k ∈ c, k ∈ c') (h : regionsComplete chart c n = true) :
  regionsComplete chart c' n = true
  := by
  apply List.all_eq_true.mpr
  exact fun r hr => isComplete_mono hsub (List.all_eq_true.mp h r hr)

/-- No final node is among complete regions. -/
theorem not_final_of_regionsComplete {r : Nat} (h : regionsComplete chart c n = true)
    (hr : r ∈ chart.regions n) :
  (chart.kind r).isFinal = false
  := by
  cases hfinal : (chart.kind r).isFinal with
  | false => rfl
  | true =>
    have hcomplete := List.all_eq_true.mp h r hr
    rw [isComplete_of_isFinal _ hfinal] at hcomplete
    cases hcomplete

/-- The node whose entry completes a node is a final child of a compound node within it, and of
the node itself if this is compound. -/
theorem final_of_isComplete_insert (wf : chart.WellFormed)
    (h : ¬ isComplete chart c fuel n = true)
    (h' : isComplete chart (NodeSet.insert f c) fuel n = true) :
  (chart.kind f).isFinal = true ∧
    ∃ q, chart.parent? f = some q ∧ chart.Within q n ∧ (chart.kind q).isCompound = true ∧
      ((chart.kind n).isCompound = true → q = n)
  := by
  induction fuel generalizing n with
  | zero => cases h'
  | succ fuel ih =>
    rcases isComplete_succ_iff.mp h' with
      ⟨hcompound, k, hchild, hfinal, hactive⟩ | ⟨hparallel, hall⟩
    · rcases NodeSet.mem_insert.mp hactive with rfl | hactive
      · exact ⟨hfinal, n, wf.parent_of_mem_children hchild, Or.inl rfl, hcompound, fun _ => rfl⟩
      · exact absurd (isComplete_succ_iff.mpr (Or.inl ⟨hcompound, k, hchild, hfinal, hactive⟩)) h
    · obtain ⟨r, hr, hincomplete⟩ :
          ∃ r ∈ chart.regions n, ¬ isComplete chart c fuel r = true := by
        by_contra hnone
        push Not at hnone
        apply h (isComplete_succ_iff.mpr (Or.inr ⟨hparallel, hnone⟩))
      obtain ⟨hfinal, q, hq, hwithin, hcompound, -⟩ := ih hincomplete (hall r hr)
      use hfinal, q, hq
      and_intros
      · apply wf.within_trans hwithin
        exact Or.inr (wf.isBelow_of_parent (Chart.parent_of_mem_regions wf hr))
      · exact hcompound
      · intro hn
        rw [(Kind.plain_of_isCompound hn).2.1] at hparallel
        cases hparallel

end Progress

/-! ### Announcements of parallel nodes -/

/-- Whether `f` is a final region of `n`. -/
def Chart.FinalRegion (chart : Chart) (n f : Nat) : Prop :=
  (chart.kind f).isFinal = true ∧ chart.parent? f = some n

/-- Whether `f` is a final child of a child of `n`. -/
def Chart.Finishes (chart : Chart) (n f : Nat) : Prop :=
  (chart.kind f).isFinal = true ∧ ∃ r ∈ chart.parent? f, chart.parent? r = some n

instance (chart : Chart) (n f : Nat) : Decidable (chart.FinalRegion n f) :=
  inferInstanceAs (Decidable (_ ∧ _))

instance (chart : Chart) (n f : Nat) : Decidable (chart.Finishes n f) :=
  inferInstanceAs (Decidable (_ ∧ _))

namespace Progress

open Chart (root lt_of_parent mem_regions)

variable {chart : Chart} {c : NodeSet} {nodes before after : List Nat} {n q f k : Nat}

theorem mem_completedAbove (hn : (chart.kind n).isParallel = true) :
  n ∈ completedAbove chart c q ↔ chart.parent? q = some n ∧ regionsComplete chart c n = true
  := by
  rw [completedAbove, List.mem_filter, Option.mem_toList, Bool.and_eq_true]
  simp [hn]

/-- The entry of a node announces a parallel node of which it is a final region, or of which it
finishes a region when all of them are complete. -/
theorem mem_announcedBy (wf : chart.WellFormed) (hn : (chart.kind n).isParallel = true) :
  n ∈ announcedBy chart c f ↔
    (chart.FinalRegion n f ∧ n ≠ root) ∨
      (chart.Finishes n f ∧ regionsComplete chart c n = true)
  := by
  rw [announcedBy, Chart.FinalRegion, Chart.Finishes]
  cases (chart.kind f).isFinal with
  | false => simp
  | true =>
    cases hparent : chart.parent? f with
    | none => simp
    | some q =>
      dsimp only
      by_cases hq : q = root
      · rw [if_pos hq]
        constructor
        · intro hmem
          cases hmem
        · rintro (⟨⟨-, heq⟩, hroot⟩ | ⟨⟨-, r, heq, habove⟩, -⟩)
          · cases heq
            exact absurd hq hroot
          · cases heq
            rw [hq, wf.parent_root] at habove
            cases habove
      · rw [if_neg hq, List.mem_cons, mem_completedAbove hn]
        constructor
        · rintro (rfl | habove)
          · exact Or.inl ⟨⟨rfl, rfl⟩, hq⟩
          · exact Or.inr ⟨⟨rfl, q, rfl, habove.1⟩, habove.2⟩
        · rintro (⟨⟨-, heq⟩, -⟩ | ⟨⟨-, r, heq, habove⟩, hcomplete⟩)
          · cases heq
            exact Or.inl rfl
          · cases heq
            exact Or.inr ⟨habove, hcomplete⟩

theorem nodup_announcedBy (wf : chart.WellFormed) :
  (announcedBy chart c f).Nodup
  := by
  rw [announcedBy]
  split
  · next q hfinal hparent =>
    split
    · apply List.nodup_nil
    · apply List.nodup_cons.mpr
      constructor
      · intro hmem
        have habove := (List.mem_filter.mp hmem).1
        rw [Option.mem_toList] at habove
        apply Nat.lt_irrefl q (wf.parent_lt habove)
      · apply List.Nodup.filter
        cases chart.parent? q with
        | none => apply List.nodup_nil
        | some a => apply List.nodup_singleton
  · apply List.nodup_nil

/-- An announcement of a parallel node comes from a final region, or all its regions are
complete from then on. -/
theorem mem_announced_cases (wf : chart.WellFormed) (hn : (chart.kind n).isParallel = true)
    (h : n ∈ announced chart c nodes) :
  (n ≠ root ∧ ∃ f ∈ nodes, chart.FinalRegion n f) ∨
    ((∃ f ∈ nodes, chart.Finishes n f) ∧ regionsComplete chart (withNodes c nodes) n = true)
  := by
  induction nodes generalizing c with
  | nil => cases h
  | cons k nodes ih =>
    rcases List.mem_append.mp h with h | h
    · rcases (mem_announcedBy wf hn).mp h with ⟨hregion, hroot⟩ | ⟨hfinishes, hcomplete⟩
      · exact Or.inl ⟨hroot, k, List.mem_cons_self, hregion⟩
      · right
        use ⟨k, List.mem_cons_self, hfinishes⟩
        have hkept : ∀ i ∈ NodeSet.insert k c, i ∈ withNodes (NodeSet.insert k c) nodes :=
          fun i hi => mem_withNodes.mpr (Or.inl hi)
        apply regionsComplete_mono hkept hcomplete
    · rcases ih h with ⟨hroot, f, hf, hregion⟩ | ⟨⟨f, hf, hfinishes⟩, hcomplete⟩
      · exact Or.inl ⟨hroot, f, List.mem_cons_of_mem k hf, hregion⟩
      · exact Or.inr ⟨⟨f, List.mem_cons_of_mem k hf, hfinishes⟩, hcomplete⟩

theorem mem_announced_of_finalRegion (wf : chart.WellFormed)
    (hn : (chart.kind n).isParallel = true) (hroot : n ≠ root) (hf : f ∈ nodes)
    (hregion : chart.FinalRegion n f) :
  n ∈ announced chart c nodes
  := by
  induction nodes generalizing c with
  | nil => cases hf
  | cons k nodes ih =>
    apply List.mem_append.mpr
    rcases List.mem_cons.mp hf with rfl | hf
    · exact Or.inl ((mem_announcedBy wf hn).mpr (Or.inl ⟨hregion, hroot⟩))
    · exact Or.inr (ih hf)

/-! ### The completing node -/

/-- Whether the entry of `f`, after that of the nodes `before` it, completes the regions of
`n`. -/
structure Completing (chart : Chart) (c : NodeSet) (before : List Nat) (f n : Nat) : Prop where
  incomplete : regionsComplete chart (withNodes c before) n = false
  complete : regionsComplete chart (withNodes c (before ++ [f])) n = true

/-- If the regions of a node are complete after nodes are entered, but were not before, one of
the entered nodes completes them. -/
theorem exists_completing (h : regionsComplete chart c n = false)
    (h' : regionsComplete chart (withNodes c nodes) n = true) :
  ∃ before f after, nodes = before ++ f :: after ∧ Completing chart c before f n
  := by
  induction nodes generalizing c with
  | nil =>
    rw [withNodes, List.foldl_nil, h] at h'
    cases h'
  | cons k nodes ih =>
    cases hk : regionsComplete chart (NodeSet.insert k c) n with
    | true => exact ⟨[], k, nodes, rfl, h, hk⟩
    | false =>
      obtain ⟨before, f, after, rfl, hcompleting⟩ := ih hk h'
      exact ⟨k :: before, f, after, rfl, hcompleting.incomplete, hcompleting.complete⟩

/-- The completing node is a final child of a compound node within a region, and of the region
itself if this is compound. -/
theorem Completing.final (wf : chart.WellFormed) (h : Completing chart c before f n) :
  (chart.kind f).isFinal = true ∧
    ∃ r ∈ chart.regions n, ∃ q, chart.parent? f = some q ∧ chart.Within q r ∧
      (chart.kind q).isCompound = true ∧ ((chart.kind r).isCompound = true → q = r)
  := by
  obtain ⟨hincomplete, hcomplete⟩ := h
  rw [withNodes_concat] at hcomplete
  obtain ⟨r, hr, hfalse⟩ := List.all_eq_false.mp hincomplete
  obtain ⟨hfinal, hq⟩ :=
    final_of_isComplete_insert wf hfalse (List.all_eq_true.mp hcomplete r hr)
  exact ⟨hfinal, r, hr, hq⟩

theorem mem_regions_of_isFinal (wf : chart.WellFormed) (hk : (chart.kind k).isFinal = true)
    (hn : chart.parent? k = some n) :
  k ∈ chart.regions n
  := by
  apply mem_regions.mpr ⟨wf.mem_children.mpr hn, _⟩
  cases hkind : chart.kind k with
  | final data => rfl
  | _ =>
    rw [hkind] at hk
    cases hk

theorem not_finalRegion_of_complete (wf : chart.WellFormed)
    (h : regionsComplete chart c n = true) (k : Nat) :
  ¬ chart.FinalRegion n k
  := by
  rintro ⟨hfinal, hparent⟩
  rw [not_final_of_regionsComplete h (mem_regions_of_isFinal wf hfinal hparent)] at hfinal
  cases hfinal

theorem announced_append (c : NodeSet) (before after : List Nat) :
  announced chart c (before ++ after) =
    announced chart c before ++ announced chart (withNodes c before) after
  := by
  induction before generalizing c with
  | nil => rfl
  | cons k before ih =>
    rw [List.cons_append, announced, announced, ih, List.append_assoc]
    rfl

/-- A parallel node whose regions are complete is announced again whenever one of them is
finished. -/
theorem count_announced_of_complete (wf : chart.WellFormed)
    (hn : (chart.kind n).isParallel = true) (h : regionsComplete chart c n = true) :
  (announced chart c nodes).count n = nodes.countP (fun k => decide (chart.Finishes n k))
  := by
  induction nodes generalizing c with
  | nil => rfl
  | cons k nodes ih =>
    have hk : regionsComplete chart (NodeSet.insert k c) n = true :=
      regionsComplete_mono (fun i hi => NodeSet.mem_insert_of_mem hi) h
    rw [announced, List.count_append, ih hk, (nodup_announcedBy wf).count, List.countP_cons,
      Nat.add_comm]
    simp [mem_announcedBy wf hn, not_finalRegion_of_complete wf h, hk]

/-- A parallel node is announced as often as its regions are finished from the completing node
on. -/
theorem count_announced (wf : chart.WellFormed) (hn : (chart.kind n).isParallel = true)
    (h : Completing chart c before f n) (after : List Nat) :
  (announced chart c (before ++ f :: after)).count n =
    (f :: after).countP (fun k => decide (chart.Finishes n k))
  := by
  obtain ⟨hincomplete, hcomplete⟩ := h
  rw [withNodes_concat] at hcomplete
  have hplain := not_finalRegion_of_complete wf hcomplete
  have hbefore : (announced chart c before).count n = 0 := by
    apply List.count_eq_zero.mpr
    intro hmem
    rcases mem_announced_cases wf hn hmem with ⟨-, k, -, hregion⟩ | ⟨-, hcomplete⟩
    · apply hplain k hregion
    · rw [hincomplete] at hcomplete
      cases hcomplete
  rw [announced_append, List.count_append, hbefore, Nat.zero_add, announced, List.count_append,
    count_announced_of_complete wf hn hcomplete, (nodup_announcedBy wf).count, List.countP_cons,
    Nat.add_comm]
  simp [mem_announcedBy wf hn, hplain, hcomplete]

end Progress

end Statechart
