import Mathlib.Data.List.Induction
import Statechart.Proofs.Resolution.Domain
import Statechart.Resolution.Microstep

/-!
# Microsteps

What a microstep does to the active nodes and to the recorded histories.  Actions change
neither; the active nodes afterwards are those that were not exited with those that are
entered (`mem_configuration_microstep`), and the history children of the exited nodes record
the configuration before the step (`lookup_recordAll`).
-/

namespace Statechart.Progress

variable {chart : Chart} {imps : Implementations} {trigger : Event} {p : Progress}
  {configuration : NodeSet} {history : History} {ts : List Transition} {n h : Nat}

/-! ### Recorded histories -/

/-- The histories after the given nodes are exited. -/
def recordAll (chart : Chart) (configuration : NodeSet) (history : History)
    (exited : List Nat) : History :=
  exited.foldl (recordNode chart configuration) history

/-- The histories after the transitions have exited their nodes. -/
def recorded (chart : Chart) (configuration : NodeSet) (history : History)
    (ts : List Transition) : History :=
  recordAll chart configuration history (chart.exited configuration history ts).reverse

/-- The active nodes that a microstep exits. -/
def exiting (chart : Chart) (p : Progress) (ts : List Transition) : NodeSet :=
  chart.exited p.configuration p.history ts

/-- The nodes that a microstep enters. -/
def entering (chart : Chart) (p : Progress) (ts : List Transition) : NodeSet :=
  entered chart (recorded chart p.configuration p.history ts) ts

/-- What each transition hands on when its nodes are added holds of all nodes to enter. -/
theorem entered_induction {P : List Transition → NodeSet → Prop} (hnil : P [] [])
    (hstep : ∀ done t rest s, done ++ t :: rest = ts → P done s →
      P (done ++ [t]) (addEntered chart history s t)) :
  P ts (entered chart history ts)
  := by
  rw [entered]
  induction ts using List.reverseRecOn with
  | nil => exact hnil
  | append_singleton us u ih =>
    rw [List.foldl_append, List.foldl_cons, List.foldl_nil]
    apply hstep us u [] _ rfl
    apply ih
    intro done t rest s heq
    apply hstep done t (rest ++ [u]) s
    rw [← heq]
    simp

theorem mem_exiting :
  n ∈ p.exiting chart ts ↔ n ∈ p.configuration ∧ ∃ t ∈ ts, ∃ d,
    chart.scope p.history t = some d ∧ chart.isBelow n d = true
  := Chart.mem_exited

/-- A child of an exited node records exactly if it is a history node. -/
theorem lookup_recordNode (h n : Nat) :
  (recordNode chart configuration history n).lookup h =
    match chart.kind h with
    | .history depth _ =>
      if h ∈ chart.children n then some (recording chart configuration n depth)
      else history.lookup h
    | _ => history.lookup h
  := by
  rw [recordNode]
  induction chart.children n using List.reverseRecOn with
  | nil =>
    rw [List.foldl_nil]
    split <;> simp
  | append_singleton cs c ih =>
    rw [List.foldl_append, List.foldl_cons, List.foldl_nil]
    by_cases hc : h = c
    · subst hc
      cases hk : chart.kind h with
      | history depth defaults =>
        dsimp only
        rw [Association.lookup_insertSorted_self]
        simp
      | _ =>
        dsimp only
        rw [ih, hk]
    · have hmem : h ∈ cs ++ [c] ↔ h ∈ cs := by simp [hc]
      cases chart.kind c with
      | history depth defaults =>
        dsimp only
        rw [Association.lookup_insertSorted_of_ne _ _ hc, ih]
        simp only [hmem]
      | _ =>
        dsimp only
        rw [ih]
        simp only [hmem]

/-- A history node whose parent is exited records its part of the configuration; the others
keep what they have. -/
theorem lookup_recordAll (wf : chart.WellFormed) (h : Nat) (exited : List Nat) :
  (recordAll chart configuration history exited).lookup h =
    match chart.kind h, chart.parent? h with
    | .history depth _, some p =>
      if p ∈ exited then some (recording chart configuration p depth) else history.lookup h
    | _, _ => history.lookup h
  := by
  rw [recordAll]
  induction exited using List.reverseRecOn with
  | nil =>
    rw [List.foldl_nil]
    split <;> simp
  | append_singleton ns n ih =>
    rw [List.foldl_append, List.foldl_cons, List.foldl_nil, lookup_recordNode, ih]
    cases hk : chart.kind h with
    | history depth defaults =>
      dsimp only
      cases hp : chart.parent? h with
      | none =>
        have hnot : h ∉ chart.children n := by
          intro hmem
          rw [wf.parent_of_mem_children hmem] at hp
          cases hp
        simp [hnot]
      | some p =>
        by_cases hn : n = p
        · subst hn
          simp [wf.mem_children.mpr hp]
        · have hnot : h ∉ chart.children n := by
            intro hmem
            rw [wf.parent_of_mem_children hmem, Option.some.injEq] at hp
            apply hn hp
          have hp' : p ∈ ns ++ [n] ↔ p ∈ ns := by simp [Ne.symm hn]
          simp [hnot, Ne.symm hn]
    | _ => rfl

theorem lookup_recorded_of_mem (wf : chart.WellFormed) {depth : HistoryDepth}
    {defaults : List Nat} {p : Nat} (hk : chart.kind h = .history depth defaults)
    (hp : chart.parent? h = some p) (hexited : p ∈ chart.exited configuration history ts) :
  (recorded chart configuration history ts).lookup h =
    some (recording chart configuration p depth)
  := by
  rw [recorded, lookup_recordAll wf, hk, hp]
  simp [hexited]

theorem lookup_recorded_of_not_mem (wf : chart.WellFormed) {p : Nat}
    (hp : chart.parent? h = some p) (hexited : p ∉ chart.exited configuration history ts) :
  (recorded chart configuration history ts).lookup h = history.lookup h
  := by
  rw [recorded, lookup_recordAll wf, hp]
  split
  · next heq =>
    rw [Option.some.injEq] at heq
    subst heq
    simp [hexited]
  · rfl

/-- What is recorded after a step was recorded before, or is recorded by a history child of
an exited node. -/
theorem lookup_recorded_cases (wf : chart.WellFormed) {nodes : List Nat}
    (hlookup : (recorded chart configuration history ts).lookup h = some nodes) :
  history.lookup h = some nodes ∨
    ∃ depth defaults p, chart.kind h = .history depth defaults ∧ chart.parent? h = some p ∧
      p ∈ chart.exited configuration history ts ∧
      nodes = recording chart configuration p depth
  := by
  rw [recorded, lookup_recordAll wf] at hlookup
  split at hlookup
  · next depth defaults p hk hp =>
    split at hlookup
    · next hexited =>
      right
      rw [Option.some.injEq] at hlookup
      exact ⟨depth, defaults, p, hk, hp, List.mem_reverse.mp hexited, hlookup.symm⟩
    · exact Or.inl hlookup
  · exact Or.inl hlookup

/-! ### Active nodes -/

@[simp]
theorem configuration_leave (p : Progress) (n : Nat) :
  (p.leave chart imps trigger n).configuration = p.configuration.erase n
  := rfl

theorem configuration_complete (p : Progress) (parent : Nat) (data : Option Json) :
  (p.complete chart parent data).configuration = p.configuration ∧
    (p.complete chart parent data).history = p.history
  := by
  rw [complete]
  split
  · exact ⟨rfl, rfl⟩
  · dsimp only
    split
    · exact ⟨rfl, rfl⟩
    · split <;> exact ⟨rfl, rfl⟩

theorem configuration_enterNode (p : Progress) (n : Nat) :
  (p.enterNode chart imps trigger n).configuration = NodeSet.insert n p.configuration ∧
    (p.enterNode chart imps trigger n).history = p.history
  := by
  rw [enterNode]
  split
  · next data parent _ _ =>
    rw [(configuration_complete _ parent _).1, (configuration_complete _ parent _).2]
    exact ⟨rfl, rfl⟩
  · exact ⟨rfl, rfl⟩

theorem configuration_foldl_leave (exited : List Nat) (p : Progress) :
  (exited.foldl (leave chart imps trigger) p).configuration =
      p.configuration.filter (fun n => n ∉ exited) ∧
    (exited.foldl (leave chart imps trigger) p).history = p.history
  := by
  induction exited generalizing p with
  | nil => simp
  | cons n exited ih =>
    rw [List.foldl_cons, (ih _).1, (ih _).2]
    constructor
    · rw [configuration_leave, NodeSet.erase, List.filter_filter]
      congr 1
      funext m
      simp [Bool.and_comm]
    · rfl

theorem configuration_foldl_act (p : Progress) (ts : List Transition) :
  (ts.foldl (fun p t => p.act chart imps trigger t.actions) p).configuration =
      p.configuration ∧
    (ts.foldl (fun p t => p.act chart imps trigger t.actions) p).history = p.history
  := by
  induction ts generalizing p with
  | nil => exact ⟨rfl, rfl⟩
  | cons t ts ih =>
    rw [List.foldl_cons, (ih _).1, (ih _).2]
    exact ⟨rfl, rfl⟩

theorem configuration_enter (p : Progress) (nodes : NodeSet) :
  (p.enter chart imps trigger nodes).configuration =
      nodes.foldl (fun s n => NodeSet.insert n s) p.configuration ∧
    (p.enter chart imps trigger nodes).history = p.history
  := by
  rw [enter]
  dsimp only
  induction nodes generalizing p with
  | nil => exact ⟨rfl, rfl⟩
  | cons n nodes ih =>
    rw [List.foldl_cons, List.foldl_cons, (ih _).1, (ih _).2]
    rw [(configuration_enterNode p n).1, (configuration_enterNode p n).2]
    exact ⟨rfl, rfl⟩

theorem history_microstep (p : Progress) (ts : List Transition) :
  (microstep chart imps ts trigger p).history =
    recorded chart p.configuration p.history ts
  := by
  rw [microstep]
  rw [(configuration_enter _ _).2, (configuration_foldl_act _ ts).2,
    (configuration_foldl_leave _ _).2, recorded, recordAll]

theorem configuration_microstep (p : Progress) (ts : List Transition) :
  (microstep chart imps ts trigger p).configuration =
    (entered chart (recorded chart p.configuration p.history ts) ts).foldl
      (fun s n => NodeSet.insert n s)
      (p.configuration.filter
        (fun n => n ∉ (chart.exited p.configuration p.history ts).reverse))
  := by
  rw [microstep]
  rw [(configuration_enter _ _).1, (configuration_foldl_act _ ts).1,
    (configuration_foldl_act _ ts).2, (configuration_foldl_leave _ _).1,
    (configuration_foldl_leave _ _).2, recorded, recordAll]

/-- The active nodes after a step: those that were not exited and those that are entered. -/
theorem mem_configuration_microstep :
  n ∈ (microstep chart imps ts trigger p).configuration ↔
    (n ∈ p.configuration ∧ n ∉ p.exiting chart ts) ∨ n ∈ p.entering chart ts
  := by
  rw [configuration_microstep, NodeSet.mem_foldl_insert, List.mem_filter, entering, exiting]
  simp

/-- If a microstep exits and enters nodes below `r` alone, the other nodes stay what they
were. -/
theorem mem_configuration_of_not_isBelow {r : Nat}
    (hexiting : ∀ n ∈ p.exiting chart ts, chart.isBelow n r = true)
    (hentering : ∀ n ∈ p.entering chart ts, chart.isBelow n r = true)
    (hn : ¬ chart.isBelow n r = true) :
  n ∈ (microstep chart imps ts trigger p).configuration ↔ n ∈ p.configuration
  := by
  rw [mem_configuration_microstep]
  constructor
  · rintro (⟨hactive, -⟩ | hentered)
    · exact hactive
    · exact absurd (hentering n hentered) hn
  · intro hactive
    exact Or.inl ⟨hactive, fun hexited => hn (hexiting n hexited)⟩

theorem configuration_microstep_increasing (h : p.configuration.Pairwise (· < ·)) :
  (microstep chart imps ts trigger p).configuration.Pairwise (· < ·)
  := by
  rw [configuration_microstep]
  apply NodeSet.foldl_insert_increasing _ (h.filter _)

end Statechart.Progress
