import Mathlib.Data.List.Sort
import Statechart.Proofs.Machine.Announced
import Statechart.Proofs.Resolution.Reentry

/-!
# The order of a microstep

A microstep exits nodes from the last in document order to the first, and enters nodes in
document order; as the nodes are numbered in this order, descendants are exited before their
ancestors and entered after them, and siblings are exited in reverse.  The microstep leaves what
its actions lead to one after the other, apart from the completions that the entries of final
nodes raise in between (`ordered_of_microstep`).
-/

namespace Statechart

namespace Collection

variable {chart : Chart} {imps : Implementations} {trigger : Event} {c c' : Collection}
  {actions actions' : List Action}

/-- What actions raise does not depend on what was raised before. -/
theorem raisings_congr (h : Same c c') :
  c.raisings chart imps trigger actions = c'.raisings chart imps trigger actions
  := by
  induction actions generalizing c c' with
  | nil => rfl
  | cons action actions ih =>
    rw [raisings, raisings, ih (h.expand action), raisingsOf, raisingsOf, h.context]

theorem raisings_append :
  c.raisings chart imps trigger (actions ++ actions') =
    c.raisings chart imps trigger actions ++
      (c.collect chart imps trigger actions).raisings chart imps trigger actions'
  := by
  induction actions generalizing c with
  | nil => rfl
  | cons action actions ih =>
    rw [List.cons_append, raisings, raisings, ih, List.append_assoc]
    rfl

/-- Actions raise no completions. -/
theorem filter_raisings :
  (c.raisings chart imps trigger actions).filter (fun r => r.completed?.isNone) =
    c.raisings chart imps trigger actions
  := by
  rw [List.filter_eq_self]
  intro r hr
  rw [List.filterMap_eq_nil_iff.mp (completed_raisings c actions) r hr]
  rfl

end Collection

namespace Progress

open Chart (exiting_increasing)

variable {chart : Chart} {imps : Implementations} {trigger : Event} {p : Progress}
  {ts : List Transition} {nodes : List Nat} {a b n : Nat}

/-! ### Raised events without completions -/

theorem filter_entryRaisings (p : Progress) (n : Nat) :
  (p.entryRaisings chart imps trigger n).filter (fun r => r.completed?.isNone) =
    p.collected.raisings chart imps trigger (chart.entryActions n)
  := by
  have hcompletions : ∀ c parent data, (completions chart c parent data).filter
      (fun r => r.completed?.isNone) = [] := by
    intro c parent data
    rw [completions, List.filter_eq_nil_iff]
    split
    · simp
    · simp [Raising.completed?]
  rw [entryRaisings, List.filter_append, Collection.filter_raisings]
  split
  · rw [hcompletions, List.append_nil]
  · exact List.append_nil _

/-- Apart from completions, entries raise what the entry actions do. -/
theorem filter_arrivals (p : Progress) (nodes : List Nat) :
  (p.arrivals chart imps trigger nodes).filter (fun r => r.completed?.isNone) =
    p.collected.raisings chart imps trigger (nodes.flatMap chart.entryActions)
  := by
  induction nodes generalizing p with
  | nil => rfl
  | cons n nodes ih =>
    rw [arrivals, List.filter_append, filter_entryRaisings, ih, List.flatMap_cons,
      Collection.raisings_append]
    congr 1
    apply Collection.raisings_congr (collected_enterNode p n)

/-- Apart from completions, a microstep raises what its actions do. -/
theorem Step.filter_raised (x : Step) :
  (x.raised chart imps).filter (fun r => r.completed?.isNone) =
    x.before.collected.raisings chart imps x.trigger (x.before.performed chart x.transitions)
  := by
  rw [Step.raised, List.filter_append, Collection.filter_raisings, filter_arrivals,
    collected_arriving, ← Collection.raisings_append]
  rfl

/-! ### Exits and entries -/

/-- Of two members of an increasing list the lesser comes first. -/
theorem pair_sublist_of_lt (hnodes : nodes.Pairwise (· < ·)) (ha : a ∈ nodes) (hb : b ∈ nodes)
    (hlt : a < b) :
  [a, b].Sublist nodes
  := by
  have hpair : [a, b].Pairwise (· < ·) := by simp [hlt]
  have hnodup : [a, b].Nodup := hpair.imp Nat.ne_of_lt
  apply List.sublist_of_subperm_of_pairwise (List.subperm_of_subset hnodup _) hpair hnodes
  simp [ha, hb]

/-- A microstep exits each node once, the last in document order first. -/
theorem exits_pair_sublist (legal : chart.Legal p.configuration)
    (ha : a ∈ (p.exiting chart ts).reverse) (hb : b ∈ (p.exiting chart ts).reverse)
    (hlt : a < b) :
  [b, a].Sublist (p.exiting chart ts).reverse
  := by
  have hpair := pair_sublist_of_lt (exiting_increasing legal ts) (List.mem_reverse.mp ha)
    (List.mem_reverse.mp hb) hlt
  exact hpair.reverse

end Progress

namespace Machine

open Progress Chart

variable {m : Machine}

/-- Let `x` be a microstep of a compiled chart from a legal configuration, under any
transitions.  Each node is exited at most once and entered at most once.  Nodes are exited
before their exited ancestors and entered after their entered ancestors; of siblings the later
one is exited first, with all that lies within it, and entered last.  The microstep leaves the
context and the actions that the exit actions of the exited nodes, the actions of the
transitions and the entry actions of the entered nodes lead to, one after the other in this
order, and raises what they do and, in between, the completions that the entries of final nodes
announce. -/
theorem ordered_of_microstep {document : Document.Machine}
    (h : ofDocument document = .ok m.chart) {x : Step}
    (legal : m.chart.Legal x.before.configuration) :
  let exits := (x.before.exiting m.chart x.transitions).reverse
  let entries := x.before.entering m.chart x.transitions
  let after := x.after m.chart m.implementations
  let actions := exits.flatMap m.chart.exitActions ++ x.transitions.flatMap Transition.actions ++
    entries.flatMap m.chart.entryActions
  let collected :=
    actions.foldl (Collection.expand m.chart m.implementations x.trigger) x.before.collected
  let raised := x.raised m.chart m.implementations
  ((exits.Nodup ∧ entries.Nodup) ∧
    (∀ n, n ∈ after.configuration ↔ n ∈ x.before.configuration ∧ n ∉ exits ∨ n ∈ entries) ∧
    (∀ n a, m.chart.isBelow n a = true →
      (n ∈ exits → a ∈ exits → [n, a].Sublist exits) ∧
      (n ∈ entries → a ∈ entries → [a, n].Sublist entries)) ∧
    ∀ q r r' n n', [r, r'].Sublist (m.chart.children q) →
      m.chart.Within n r → m.chart.Within n' r' →
      (n ∈ exits → n' ∈ exits → [n', n].Sublist exits) ∧
      (n ∈ entries → n' ∈ entries → [n, n'].Sublist entries)) ∧
  (after.collected.context = collected.context ∧ after.collected.actions = collected.actions) ∧
  after.queue = x.before.queue ++ x.before.collected.raised ++
    raised.map (Raising.event m.chart) ∧
  collected.raised = x.before.collected.raised ++
    (raised.filter (fun r => r.completed?.isNone)).map (Raising.event m.chart) ∧
  raised.filterMap Raising.completed? = announced m.chart (x.remaining m.chart) entries
  := by
  intro exits entries after actions collected raised
  have wf := wellFormed_of_ofDocument h
  have hexits : ∀ {a b}, a ∈ exits → b ∈ exits → a < b → [b, a].Sublist exits :=
    fun ha hb hlt => exits_pair_sublist legal ha hb hlt
  have hentries : ∀ {a b}, a ∈ entries → b ∈ entries → a < b → [a, b].Sublist entries :=
    fun ha hb hlt => pair_sublist_of_lt (entering_increasing _ _) ha hb hlt
  have hsame : Collection.Same after.collected collected := collected_microstep _ _
  and_intros
  · apply List.nodup_reverse.mpr
    exact (exiting_increasing legal _).imp Nat.ne_of_lt
  · exact (entering_increasing _ _).imp Nat.ne_of_lt
  · intro n
    rw [List.mem_reverse]
    apply mem_configuration_microstep
  · intro n a hbelow
    have hlt := wf.lt_of_isBelow hbelow
    exact ⟨fun hn ha => hexits ha hn hlt, fun hn ha => hentries ha hn hlt⟩
  · intro q r r' n n' hsiblings hn hn'
    have hlt : r < r' := by simpa using (wf.children_increasing q).sublist hsiblings
    have hlt := wf.lt_of_siblings (wf.mem_children.mp (hsiblings.subset (by simp)))
      (wf.mem_children.mp (hsiblings.subset (by simp))) hlt hn hn'
    exact ⟨fun h h' => hexits h h' hlt, fun h h' => hentries h h' hlt⟩
  · exact hsame.context
  · exact hsame.actions
  · exact x.queue_after.1
  · rw [x.filter_raised]
    apply Collection.raised_collect
  · apply completed_raised

/-- A parallel state with two regions, whose leaves write their names into the context when
they are exited, and with a transition to itself for the event `AGAIN`. -/
def signing : Document.Machine where
  root := .node { initial := some "p" }
    [("p", .node { type := some .parallel, on := [("AGAIN", [{}])] }
      [("left", .node { initial := some "a" }
        [("a", .node { exit := [.assign (.fields [("last", .value (.str "a"))])] } [])]),
       ("right", .node { initial := some "x" }
        [("x", .node { exit := [.assign (.fields [("last", .value (.str "x"))])] } [])])])]

/-- A resolution in which all states of `signing` are active. -/
def signed : Progress :=
  { configuration := [0, 1, 2, 3, 4, 5], history := [], collected := ⟨.null, [], []⟩ }

theorem ordered_of_microstep_signing :
  ∃ chart t, ofDocument signing = .ok chart ∧ chart.transitions 1 = [t] ∧
    let x : Step := ⟨signed, [t], .bare "AGAIN"⟩
    chart.Legal signed.configuration ∧
      [3, 1].Sublist (signed.exiting chart [t]).reverse ∧
      [5, 3].Sublist (signed.exiting chart [t]).reverse ∧
      [1, 3].Sublist (signed.entering chart [t]) ∧ [3, 5].Sublist (signed.entering chart [t]) ∧
      (x.after chart {}).collected.context =
        (((signed.exiting chart [t]).reverse.flatMap chart.exitActions ++
          [t].flatMap Transition.actions ++
          (signed.entering chart [t]).flatMap chart.entryActions).foldl
            (Collection.expand chart {} (.bare "AGAIN")) signed.collected).context ∧
      ((x.after chart {}).collected.context == .obj [("last", .str "a")]) = true
  := by
  obtain ⟨chart, h, hp⟩ := Outcome.exists_of_any (x := ofDocument signing)
    (p := fun chart => chart.Legal signed.configuration ∧ (chart.transitions 1).length = 1 ∧
      chart.children 1 = [2, 4] ∧ chart.isBelow 3 1 = true ∧ chart.isBelow 3 2 = true ∧
      chart.isBelow 5 4 = true ∧ ∀ t ∈ chart.transitions 1,
        (signed.exiting chart [t] = [1, 2, 3, 4, 5] ∧ signed.entering chart [t] = [1, 2, 3, 4, 5]) ∧
        ((microstep chart {} [t] (.bare "AGAIN") signed).collected.context ==
          .obj [("last", .str "a")]) = true)
    (by decide +kernel)
  obtain ⟨legal, hlength, hchildren, habove, hleft, hright, hall⟩ := of_decide_eq_true hp
  obtain ⟨t, ht⟩ := List.length_eq_one_iff.mp hlength
  rw [ht, List.forall_mem_singleton] at hall
  obtain ⟨⟨hexiting, hentering⟩, hcontext⟩ := hall
  have hexits : ∀ n ∈ [1, 3, 5], n ∈ (signed.exiting chart [t]).reverse := by
    rw [hexiting]
    decide
  have hentries : ∀ n ∈ [1, 3, 5], n ∈ signed.entering chart [t] := by
    rw [hentering]
    decide
  obtain ⟨⟨-, -, hdescends, hsiblings⟩, ⟨hsame, -⟩, -⟩ :=
    ordered_of_microstep (m := ofChart chart) h (x := ⟨signed, [t], .bare "AGAIN"⟩) legal
  obtain ⟨hexited, hentered⟩ := hdescends 3 1 habove
  obtain ⟨hexited', hentered'⟩ := hsiblings 1 2 4 3 5
    (by change [2, 4].Sublist (chart.children 1); rw [hchildren]) (Or.inr hleft) (Or.inr hright)
  exact ⟨chart, t, h, ht, legal, hexited (hexits 3 (by simp)) (hexits 1 (by simp)),
    hexited' (hexits 3 (by simp)) (hexits 5 (by simp)),
    hentered (hentries 3 (by simp)) (hentries 1 (by simp)),
    hentered' (hentries 3 (by simp)) (hentries 5 (by simp)), hsame, hcontext⟩

end Machine

end Statechart
