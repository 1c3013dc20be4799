import Statechart.Machine
import Statechart.Proofs.Action.Collection
import Statechart.Proofs.Chart.Identity
import Statechart.Proofs.Configuration.Named
import Statechart.Proofs.Resolution.Actions

/-!
# Restored duties

Every active node of a restored machine has its delayed transitions armed and its invocations
started again, as on entry, and nothing else is done (`restore_restarts`).  The restored actions
are picked out of the entry actions of the nodes, so the machine must not itself declare entry
actions that look like them.
-/

namespace Statechart

namespace Chart

/-! ### What a node owes -/

/-- What an active node owes: to arm a delayed transition, given by its key and the id of the
node, or to start an invocation. -/
inductive Due where
  | delay (key state : String)
  | invocation (i : Invocation)

/-- The entry action that does what is due. -/
def Due.action : Due → Action
  | .delay key state => armDelay state key
  | .invocation i => .start i.id

/-- What the state at a place owes: its delayed transitions, then its invocations. -/
def Place.dues (n : Nat) (p : Place) : List Due :=
  p.own.after.map (fun e => .delay e.1 p.node.id) ++
    (invocationsOf n p.node.id 0 p.own.invoke).map .invocation

/-- What a node of a machine owes. -/
def dues (document : Document.Machine) (n : Nat) : List Due :=
  ((places document)[n]?).elim [] (Place.dues n)

/-- Whether the entry actions that the states of a machine declare start no invocation, and send
nothing under an id like that of a delayed transition. -/
def PlainEntries (document : Document.Machine) : Prop :=
  ∀ p ∈ places document, ∀ a ∈ p.own.entry, (∀ id, a ≠ .start id) ∧
    ∀ event delay target id, a = .send event delay target (some id) →
      Text.beginsWith afterLead id = false

theorem restarts_eq_false_iff {a : Action} :
  Machine.restarts a = false ↔ (∀ id, a ≠ .start id) ∧
    ∀ event delay target id, a = .send event delay target (some id) →
      Text.beginsWith afterLead id = false
  := by
  cases a with
  | start id => simp [Machine.restarts]
  | send event delay target id =>
    cases id with
    | none => simp [Machine.restarts]
    | some id =>
      rw [Machine.restarts]
      constructor
      · intro hid
        refine ⟨fun _ => by simp, fun _ _ _ _ hsend => ?_⟩
        cases hsend
        exact hid
      · exact fun hall => hall.2 _ _ _ _ rfl
  | _ => simp [Machine.restarts]

instance (document : Document.Machine) : Decidable (PlainEntries document) :=
  decidable_of_iff (∀ p ∈ places document, ∀ a ∈ p.own.entry, Machine.restarts a = false)
    (forall₄_congr fun _ _ _ _ => restarts_eq_false_iff)

variable {document : Document.Machine} {chart : Chart} {configuration : NodeSet} {n : Nat}

theorem beginsWith_afterEvent (key state : String) :
  Text.beginsWith afterLead (afterEvent key state) = true
  := by
  rw [Text.beginsWith, List.isPrefixOf_iff_prefix, afterEvent, String.toList_append,
    String.toList_append, String.toList_append, List.append_assoc, List.append_assoc]
  exact List.prefix_append _ _

theorem Due.restarts_action (due : Due) :
  Machine.restarts due.action = true
  := by
  cases due with
  | delay key state => exact beginsWith_afterEvent key state
  | invocation i => rfl

/-- Of the entry actions of a node, those that do what it owes run again. -/
theorem PlainEntries.filter_entryActions (hplain : PlainEntries document)
    (h : ofDocument document = .ok chart) (hn : n < chart.nodes.length) :
  (chart.entryActions n).filter Machine.restarts = (dues document n).map Due.action
  := by
  have hnode : chart.node? n = some chart.nodes[n] := List.getElem?_eq_getElem hn
  obtain ⟨p, order, taken, hp, hlinked⟩ := exists_linkedFrom h hnode
  have hmem := List.mem_of_getElem? hp
  have hown : p.own.entry.filter Machine.restarts = [] := by
    rw [List.filter_eq_nil_iff]
    intro a ha
    rw [restarts_eq_false_iff.mpr (hplain p hmem a ha)]
    exact Bool.false_ne_true
  have hall : ∀ dues : List Due, (dues.map Due.action).filter Machine.restarts =
      dues.map Due.action := by
    intro dues
    rw [List.filter_eq_self]
    intro a ha
    obtain ⟨due, -, rfl⟩ := List.mem_map.mp ha
    exact due.restarts_action
  have hentry : chart.entryActions n = p.own.entry ++ (p.dues n).map Due.action := by
    rw [entryActions, hnode, Option.map_some, Option.getD_some, hlinked.entry,
      (actions_of_mem_layOut _ hmem).1, hlinked.invocations, Place.dues, List.map_append,
      List.map_map, List.map_map, List.map_map, List.append_assoc]
    rfl
  rw [hentry, List.filter_append, hown, hall, List.nil_append, dues, hp, Option.elim_some]

/-- The invocations that a node of a compiled chart owes are found by their ids. -/
theorem invocation?_of_mem_dues (h : ofDocument document = .ok chart)
    (hn : n < chart.nodes.length) {i : Invocation} (hi : .invocation i ∈ dues document n) :
  chart.invocation? i.id = some i
  := by
  have hnode : chart.node? n = some chart.nodes[n] := List.getElem?_eq_getElem hn
  obtain ⟨p, order, taken, hp, hlinked⟩ := exists_linkedFrom h hnode
  apply invocation?_of_mem h
  refine List.mem_flatMap.mpr ⟨_, List.getElem_mem hn, ?_⟩
  rw [hlinked.invocations]
  rw [dues, hp, Option.elim_some, Place.dues] at hi
  simpa using hi

end Chart

namespace Machine

open Chart (Due afterEvent)
open Collection (Ended Runs Lasts)

/-! ### What is done -/

/-- The resolved action that does what is due: a delayed send to the machine itself or a start,
unresolved if the delay or the data of the invocation fails. -/
inductive Restarts (imps : Implementations) (context : Json) : Due → ResolvedAction → Prop
  | armed {key state d} :
    Lasts imps context .init (some (Delay.ofKey key)) (.ok (some d)) →
    Restarts imps context (.delay key state)
      ⟨"harel.send", .send ⟨.bare (afterEvent key state), .myself, some d,
        some (afterEvent key state)⟩, .init⟩
  | unarmed {key state reason} :
    Lasts imps context .init (some (Delay.ofKey key)) (.error reason) →
    Restarts imps context (.delay key state) ⟨"harel.send", .unresolved reason, .init⟩
  | started {i} : i.data = none →
    Restarts imps context (.invocation i) ⟨"harel.start", .start i none, .init⟩
  | laden {i mapping value} : i.data = some mapping →
    mapping.Computes imps.functions context .init (.ok value) →
    Restarts imps context (.invocation i) ⟨"harel.start", .start i (some value), .init⟩
  | unstarted {i mapping reason} : i.data = some mapping →
    mapping.Computes imps.functions context .init (.error reason) →
    Restarts imps context (.invocation i) ⟨"harel.start", .unresolved reason, .init⟩

variable {chart : Chart} {imps : Implementations} {context last : Json} {due : Due}
  {dues : List Due} {run : List Ended}

/-- What is due is done by one action, which leaves the context as it is. -/
theorem restarts_of_ends {ending : Except String Collection.Outcome}
    (hfound : ∀ i, due = .invocation i → chart.invocation? i.id = some i)
    (h : Collection.Ends chart imps .init context due.action ending) :
  (∃ a, Ended.entry? .init ⟨due.action, ending⟩ = some a ∧ Restarts imps context due a) ∧
    Ended.after context ⟨due.action, ending⟩ = context
  := by
  cases due with
  | delay key state =>
    cases h with
    | sent h =>
      cases h with
      | sent he hd =>
        cases he
        obtain ⟨d, rfl⟩ := hd.exists_of_some
        exact ⟨⟨_, rfl, .armed hd⟩, rfl⟩
    | unsent h =>
      cases h with
      | noEvent he => cases he
      | noDelay _ hd => exact ⟨⟨_, rfl, .unarmed hd⟩, rfl⟩
  | invocation i =>
    have hi := hfound i rfl
    have hsame : ∀ {j}, chart.invocation? i.id = some j → j = i := by
      intro j hj
      rw [hi, Option.some.injEq] at hj
      exact hj.symm
    cases h with
    | started h =>
      cases h with
      | unknown hnone =>
        rw [hi] at hnone
        cases hnone
      | bare hj hdata =>
        obtain rfl := hsame hj
        exact ⟨⟨_, rfl, .started hdata⟩, rfl⟩
      | laden hj hdata hvalue =>
        obtain rfl := hsame hj
        exact ⟨⟨_, rfl, .laden hdata hvalue⟩, rfl⟩
    | unstarted h =>
      cases h with
      | failed hj hdata hvalue =>
        obtain rfl := hsame hj
        exact ⟨⟨_, rfl, .unstarted hdata hvalue⟩, rfl⟩

/-- What is due is done in order, one action for each, and the context stays. -/
theorem restarts_of_runs (hfound : ∀ i, .invocation i ∈ dues → chart.invocation? i.id = some i)
    (h : Runs chart imps .init context run last)
    (hactions : run.map Ended.action = dues.map Due.action) :
  List.Forall₂ (Restarts imps context) dues (run.filterMap (Ended.entry? .init)) ∧
    last = context
  := by
  induction h generalizing dues with
  | nil =>
    cases dues with
    | nil => exact ⟨.nil, rfl⟩
    | cons due dues => cases hactions
  | @cons context e run last hends _ ih =>
    cases dues with
    | nil => cases hactions
    | cons due dues =>
      rw [List.map_cons, List.map_cons] at hactions
      obtain ⟨haction, hrest⟩ := List.cons.inj hactions
      obtain ⟨action, ending⟩ := e
      obtain rfl : action = due.action := haction
      have hdue : ∀ i, due = .invocation i → chart.invocation? i.id = some i := by
        rintro i rfl
        exact hfound i List.mem_cons_self
      obtain ⟨⟨a, ha, hrestarts⟩, hsame⟩ := restarts_of_ends hdue hends
      rw [hsame] at ih
      obtain ⟨hall, rfl⟩ := ih (fun i hi => hfound i (List.mem_cons_of_mem due hi)) hrest
      rw [List.filterMap_cons_some ha]
      exact ⟨.cons hrestarts hall, rfl⟩

/-! ### Restored machines -/

variable {m : Machine} {document : Document.Machine} {configuration : NodeSet} {value : StateValue}

/-- The entry actions that run again are collected node by node. -/
theorem restarted_eq (m : Machine) (configuration : NodeSet) (context : Json) :
  m.restarted configuration context = Collection.collect m.chart m.implementations .init { context }
    (configuration.flatMap (fun n => (m.chart.entryActions n).filter restarts))
  := List.foldl_flatMap.symm

/-- Let no entry action that the states of a machine declare look like one that arms a delayed
transition or starts an invocation.  If a value names a configuration, then it is restored to
this configuration and the persisted context, and the actions of the snapshot do what its nodes
owe: in document order of the nodes each delayed transition is armed once and each invocation
started once, where those whose delay or data fails are recorded as unresolved, and nothing else
is done. -/
theorem restore_restarts (context : Json) (h : Chart.ofDocument document = .ok m.chart)
    (hplain : Chart.PlainEntries document)
    (hnames : m.chart.configurationOf value = .ok configuration) :
  configuration.Pairwise (· < ·) ∧
    ∃ s, m.restore ⟨value, context⟩ = .ok s ∧ s.configuration = configuration ∧
      s.context = context ∧
      List.Forall₂ (Restarts m.implementations context)
        (configuration.flatMap (Chart.dues document)) s.actions
  := by
  have legal := Chart.legal_of_configurationOf (Chart.wellFormed_of_ofDocument h) hnames
  have hactions : configuration.flatMap (fun n => (m.chart.entryActions n).filter restarts) =
      (configuration.flatMap (Chart.dues document)).map Due.action := by
    rw [List.map_flatMap]
    apply List.flatMap_congr
    intro n hn
    exact hplain.filter_entryActions h (legal.lt_length hn)
  have hfound : ∀ i, .invocation i ∈ configuration.flatMap (Chart.dues document) →
      m.chart.invocation? i.id = some i := by
    intro i hi
    obtain ⟨n, hn, hi⟩ := List.mem_flatMap.mp hi
    exact Chart.invocation?_of_mem_dues h (legal.lt_length hn) hi
  obtain ⟨run, last, hrun, hruns⟩ := Collection.exists_runs m.chart m.implementations .init
    ((configuration.flatMap (Chart.dues document)).map Due.action) context
  obtain ⟨hall, rfl⟩ := restarts_of_runs hfound hruns hrun
  have hcollected := Collection.collect_of_runs (c := { context := last }) hruns
  rw [hrun, ← hactions, ← restarted_eq] at hcollected
  refine ⟨legal.increasing, _, by rw [restore, hnames]; rfl, rfl, rfl, ?_⟩
  dsimp only
  rw [hcollected]
  exact hall

/-- A machine with invocations on the root and on a state in a region, and with delayed
transitions of another region, one of which waits for a delay that nobody supplies. -/
def owing : Document.Machine where
  root := .node { initial := some "p", entry := [.named "greet"], invoke := [{ src := "clock" }] }
    [("p", .node { type := some .parallel }
      [("left", .node
        { after := [("100", [{ actions := [.named "tick"] }]),
            ("soon", [{ actions := [.named "tick"] }])] } []),
       ("right", .node { initial := some "x" }
        [("x", .node
          { invoke := [{ id := some "job", src := "work", data := some (.whole (.named "size")) }] }
          []),
         ("y", .node { after := [("7", [{ targets := ["x"] }])] } [])])])]

theorem restore_restarts_owing :
  ∃ chart, Chart.ofDocument owing = .ok chart ∧ Chart.PlainEntries owing ∧
    chart.configurationOf (.leaf "p") = .ok [0, 1, 2, 3, 4] ∧
    ∃ s, (ofChart chart).restore ⟨.leaf "p", .null⟩ = .ok s ∧
      s.configuration = [0, 1, 2, 3, 4] ∧ s.context = .null ∧
      List.Forall₂ (Restarts {} .null) ([0, 1, 2, 3, 4].flatMap (Chart.dues owing)) s.actions ∧
      s.actions.length = 4
  := by
  obtain ⟨chart, h, hp⟩ := Outcome.exists_of_any (x := Chart.ofDocument owing)
    (p := fun chart => (chart.configurationOf (.leaf "p")).toOption.any (· = [0, 1, 2, 3, 4]))
    (by decide +kernel)
  obtain ⟨configuration, hnames, hconfiguration⟩ := Outcome.exists_of_any hp
  rw [of_decide_eq_true hconfiguration] at hnames
  have hplain : Chart.PlainEntries owing := by decide +kernel
  obtain ⟨-, s, hs, hsconfiguration, hcontext, hactions⟩ :=
    restore_restarts (m := ofChart chart) .null h hplain hnames
  refine ⟨chart, h, hplain, hnames, s, hs, hsconfiguration, hcontext, hactions, ?_⟩
  rw [← hactions.length_eq]
  decide +kernel

end Machine

end Statechart
