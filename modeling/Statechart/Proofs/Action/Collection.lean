import Statechart.Proofs.Action.Ending

/-!
# Collected actions

Actions that are collected run one after the other, each in the context that those before it
leave, whether these succeeded or failed.  The collection is what their endings say
(`collect_of_runs`): its context is that of the successful assignments alone, it has one entry
for each action but successful assignments and raises, and one event for each successful raise
and for each failure.  An assignment of fields that succeeds writes these fields and leaves all
others, and one that fails writes nothing (`Ended.Turns`).
-/

namespace Statechart

/-- Whether an action evaluates something: only then can it fail. -/
def Action.evaluates (chart : Chart) : Action → Bool
  | .assign _ => true
  | .raise _ => true
  | .send .. => true
  | .sendParent _ => true
  | .start id => (chart.invocation? id).any (fun i => i.data.isSome)
  | _ => false

namespace Collection

/-- An action with its ending. -/
structure Ended where
  action : Action
  ending : Except String Outcome

namespace Ended

/-- Whether the action is a successful assignment. -/
def Assigns (e : Ended) : Prop :=
  ∃ mapping next, e = ⟨.assign mapping, .ok (.context next)⟩

/-- Whether the action is a successful raise. -/
def Raises (e : Ended) : Prop :=
  ∃ event raised, e = ⟨.raise event, .ok (.raised raised)⟩

/-- The context that the action leaves. -/
def after (context : Json) (e : Ended) : Json :=
  match e.ending with
  | .ok (.context next) => next
  | _ => context

/-- The mapping of a successful assignment. -/
def assignment? (e : Ended) : Option Mapping :=
  match e.action, e.ending with
  | .assign mapping, .ok _ => some mapping
  | _, _ => none

/-- The event of a successful raise or of a failure. -/
def event? (e : Ended) : Option Event :=
  match e.ending with
  | .ok (.raised event) => some event
  | .error reason => some (failure e.action.type reason)
  | _ => none

/-- The entry of the action; that of a failed one is unresolved. -/
def entry? (trigger : Event) (e : Ended) : Option ResolvedAction :=
  match e.ending with
  | .ok (.duty duty) => some ⟨e.action.type, duty, trigger⟩
  | .error reason => some ⟨e.action.type, .unresolved reason, trigger⟩
  | _ => none

/-- What an action makes of the context that it runs in: an assignment that succeeds writes its
fields, or the whole context, and everything else leaves the context as it is, an assignment that
fails among it. -/
structure Turns (functions : Named (Computation Json)) (trigger : Event) (e : Ended)
    (context next : Json) : Prop where
  fields : e.Assigns → ∀ entries, e.action = .assign (.fields entries) →
    Mapping.Overlays functions trigger context entries next
  whole : e.Assigns → ∀ expression, e.action = .assign (.whole expression) →
    expression.eval functions context trigger = .ok next
  kept : ¬ e.Assigns → next = context

end Ended

/-- Actions that run one after the other, from one context to another. -/
inductive Runs (chart : Chart) (imps : Implementations) (trigger : Event) :
    Json → List Ended → Json → Prop
  | nil {context} : Runs chart imps trigger context [] context
  | cons {context e run last} : Ends chart imps trigger context e.action e.ending →
    Runs chart imps trigger (e.after context) run last →
    Runs chart imps trigger context (e :: run) last

variable {chart : Chart} {imps : Implementations} {trigger : Event} {context last last' : Json}
  {c : Collection} {e : Ended} {run run' : List Ended}

/-! ### One action -/

/-- An action adds its event and its entry and leaves its context. -/
theorem expand_of_ends (h : Ends chart imps trigger c.context e.action e.ending) :
  c.expand chart imps trigger e.action =
    ⟨e.after c.context, c.raised ++ e.event?.toList, c.actions ++ (e.entry? trigger).toList⟩
  := by
  obtain ⟨action, ending⟩ := e
  rw [expand, h.outcome_eq]
  match ending with
  | .ok (.context next) => simp [Ended.after, Ended.event?, Ended.entry?]
  | .ok (.raised event) => simp [Ended.after, Ended.event?, Ended.entry?]
  | .ok (.duty duty) => simp [Ended.after, Ended.event?, Ended.entry?]
  | .error reason => simp [Ended.after, Ended.event?, Ended.entry?]

/-- Only what evaluates something fails. -/
theorem Ends.evaluates {action : Action} {reason : String}
    (h : Ends chart imps trigger context action (.error reason)) :
  action.evaluates chart = true
  := by
  cases h with
  | unassigned => rfl
  | unraised => rfl
  | unsent => rfl
  | unsentUp => rfl
  | unstarted h =>
    cases h with
    | failed hi hdata =>
      rw [Action.evaluates, hi, Option.any_some, hdata]
      rfl

/-- All actions have an entry but successful assignments and raises. -/
theorem Ends.entry?_eq_none_iff (h : Ends chart imps trigger context e.action e.ending) :
  e.entry? trigger = none ↔ e.Assigns ∨ e.Raises
  := by
  obtain ⟨action, ending⟩ := e
  constructor
  · intro hnone
    cases h with
    | assigned => exact Or.inl ⟨_, _, rfl⟩
    | raised => exact Or.inr ⟨_, _, rfl⟩
    | _ => cases hnone
  · rintro (⟨mapping, next, heq⟩ | ⟨event, raised, heq⟩)
    · rw [heq]
      rfl
    · rw [heq]
      rfl

/-- A successful assignment leaves the context that its mapping makes, and all other actions
leave the context as it is. -/
theorem Ends.after (h : Ends chart imps trigger context e.action e.ending) :
  (∃ mapping, e.assignment? = some mapping ∧
      mapping.Applies imps.functions trigger context (.ok (e.after context))) ∨
    e.assignment? = none ∧ e.after context = context
  := by
  obtain ⟨action, ending⟩ := e
  cases h with
  | assigned h => exact Or.inl ⟨_, rfl, h⟩
  | _ => exact Or.inr ⟨rfl, rfl⟩

/-- An action that has ended has turned its context into the one that it leaves. -/
theorem Ends.turns (h : Ends chart imps trigger context e.action e.ending) :
  e.Turns imps.functions trigger context (e.after context)
  := by
  obtain ⟨action, ending⟩ := e
  constructor
  · rintro ⟨mapping, next, heq⟩ entries haction
    cases heq
    cases haction
    cases h with
    | assigned h => exact h.overlays
  · rintro ⟨mapping, next, heq⟩ expression haction
    cases heq
    cases haction
    cases h with
    | assigned h => exact Mapping.applies_iff.mp h
  · intro hassigns
    cases h with
    | assigned => exact absurd ⟨_, _, rfl⟩ hassigns
    | _ => rfl

/-! ### Rows of actions -/

theorem collect_cons (action : Action) (actions : List Action) :
  c.collect chart imps trigger (action :: actions) =
    (c.expand chart imps trigger action).collect chart imps trigger actions
  := rfl

theorem exists_runs (chart : Chart) (imps : Implementations) (trigger : Event)
    (actions : List Action) (context : Json) :
  ∃ run last, run.map Ended.action = actions ∧ Runs chart imps trigger context run last
  := by
  induction actions generalizing context with
  | nil => exact ⟨[], context, rfl, .nil⟩
  | cons action actions ih =>
    let e : Ended := ⟨action, outcome chart imps action context trigger⟩
    obtain ⟨run, last, hactions, hrun⟩ := ih (e.after context)
    refine ⟨e :: run, last, ?_, .cons (ends_outcome action) hrun⟩
    rw [List.map_cons, hactions]

/-- Equal actions run equally. -/
theorem Runs.unique (h : Runs chart imps trigger context run last)
    (h' : Runs chart imps trigger context run' last')
    (hactions : run.map Ended.action = run'.map Ended.action) :
  run = run' ∧ last = last'
  := by
  induction h generalizing run' with
  | nil =>
    cases h' with
    | nil => exact ⟨rfl, rfl⟩
    | cons => cases hactions
  | @cons context e run last hends _ ih =>
    cases h' with
    | nil => cases hactions
    | @cons _ e' run' _ hends' hrun' =>
      rw [List.map_cons, List.map_cons] at hactions
      obtain ⟨haction, hrest⟩ := List.cons.inj hactions
      have heq : e = e' := by
        obtain ⟨action, ending⟩ := e
        obtain ⟨action', ending'⟩ := e'
        obtain rfl : action = action' := haction
        have hending : ending = ending' := hends.outcome_eq.symm.trans hends'.outcome_eq
        rw [hending]
      subst heq
      obtain ⟨rfl, rfl⟩ := ih hrun' hrest
      exact ⟨rfl, rfl⟩

theorem Runs.ends (h : Runs chart imps trigger context run last) (he : e ∈ run) :
  ∃ before, Ends chart imps trigger before e.action e.ending
  := by
  induction h with
  | nil => cases he
  | cons hends _ ih =>
    rcases List.mem_cons.mp he with rfl | he
    · exact ⟨_, hends⟩
    · exact ih he

/-- The collection is what the endings of its actions say. -/
theorem collect_of_runs (h : Runs chart imps trigger c.context run last) :
  c.collect chart imps trigger (run.map Ended.action) =
    ⟨last, c.raised ++ run.filterMap Ended.event?,
      c.actions ++ run.filterMap (Ended.entry? trigger)⟩
  := by
  -- the run fixes only the context of the collection, so its events and entries stay general
  generalize hcontext : c.context = context at h
  induction h generalizing c with
  | nil =>
    subst hcontext
    simp [collect]
  | @cons context e run last hends _ ih =>
    subst hcontext
    rw [List.map_cons, collect_cons, expand_of_ends hends, ih rfl]
    simp only [List.append_assoc, List.filterMap_cons]
    congr 2
    · cases e.event? <;> rfl
    · cases e.entry? trigger <;> rfl

/-- The last context is that which the successful assignments leave, one after the other. -/
theorem Runs.appliesAll (h : Runs chart imps trigger context run last) :
  Mapping.AppliesAll imps.functions trigger context (run.filterMap Ended.assignment?) last
  := by
  induction h with
  | nil => exact .nil
  | cons hends _ ih =>
    rcases hends.after with ⟨mapping, hmapping, happlies⟩ | ⟨hnone, hsame⟩
    · rw [List.filterMap_cons_some hmapping]
      exact .cons happlies ih
    · rw [List.filterMap_cons_none hnone]
      rw [hsame] at ih
      exact ih

/-- Each action turns the context that is collected up to it into the one that is collected up to
the next. -/
theorem Runs.turns {before after : List Ended}
    (h : Runs chart imps trigger c.context (before ++ e :: after) last) :
  e.Turns imps.functions trigger (c.collect chart imps trigger (before.map Ended.action)).context
    (c.collect chart imps trigger ((before ++ [e]).map Ended.action)).context
  := by
  induction before generalizing c with
  | nil =>
    cases h with
    | cons hends =>
      rw [List.nil_append, List.map_singleton, collect_cons, expand_of_ends hends]
      exact hends.turns
  | cons f before ih =>
    cases h with
    | cons hends hrun =>
      rw [List.cons_append, List.map_cons, List.map_cons, collect_cons, collect_cons,
        expand_of_ends hends]
      exact ih hrun

/-- All actions are run, each in the context that those before it leave, and in one way.  The
collected context is that which the successful assignments alone make, one after the other.  Key by
key, a successful assignment of fields writes these fields and leaves all others as they are; a
failed assignment writes none of its fields, and no other action writes any.  The entries are those
of all actions but successful assignments and raises, and the raised events those of the successful
raises and one for each failure, where only what evaluates something fails. -/
theorem collect_eq_runs (chart : Chart) (imps : Implementations) (trigger : Event)
    (c : Collection) (actions : List Action) :
  ∃ run : List Ended, run.map Ended.action = actions ∧
    Runs chart imps trigger c.context run (c.collect chart imps trigger actions).context ∧
    (∀ run' last, run'.map Ended.action = actions →
      Runs chart imps trigger c.context run' last → run' = run) ∧
    Mapping.AppliesAll imps.functions trigger c.context (run.filterMap Ended.assignment?)
      (c.collect chart imps trigger actions).context ∧
    (∀ before e after, run = before ++ e :: after →
      e.Turns imps.functions trigger
        (c.collect chart imps trigger (before.map Ended.action)).context
        (c.collect chart imps trigger ((before ++ [e]).map Ended.action)).context) ∧
    (c.collect chart imps trigger actions).actions =
      c.actions ++ run.filterMap (Ended.entry? trigger) ∧
    (∀ e ∈ run, e.entry? trigger = none ↔ e.Assigns ∨ e.Raises) ∧
    (c.collect chart imps trigger actions).raised = c.raised ++ run.filterMap Ended.event? ∧
    ∀ e ∈ run, ∀ reason, e.ending = .error reason →
      e.event? = some ⟨"error.execution",
        .obj [("action", .str e.action.type), ("reason", .str reason)]⟩ ∧
      e.action.evaluates chart = true
  := by
  obtain ⟨run, last, rfl, hrun⟩ := exists_runs chart imps trigger actions c.context
  rw [collect_of_runs hrun]
  refine ⟨run, rfl, hrun, ?_, hrun.appliesAll, ?_, rfl, ?_, rfl, ?_⟩
  · intro run' last' hactions hrun'
    exact (hrun'.unique hrun hactions).1
  · rintro before e after rfl
    exact hrun.turns
  · intro e he
    obtain ⟨before, hends⟩ := hrun.ends he
    exact hends.entry?_eq_none_iff
  · intro e he reason hreason
    obtain ⟨before, hends⟩ := hrun.ends he
    rw [hreason] at hends
    exact ⟨by rw [Ended.event?, hreason]; rfl, hends.evaluates⟩

/-- A counter with three assignments of which the second fails in its last field: the first and the
third write their fields, the second leaves the context as it is and raises its failure, and the
third is run nevertheless. -/
theorem collect_eq_runs_counter :
  let chart : Chart := ⟨"counter", .null, [], { root := .node {} [] }, ""⟩
  let first : Action := .assign (.fields [("count", .value (.int 1)), ("label", .value (.str "a"))])
  let second : Action := .assign (.fields [("count", .value (.int 2)), ("total", .named "sum")])
  let third : Action := .assign (.fields [("count", .value (.int 3))])
  let reason := "unknown expression '" ++ "sum" ++ "'"
  let reached := Collection.collect chart {} (.bare "GO") { context := .obj [("count", .int 0)] }
  ∃ run : List Ended,
    run = [⟨first, .ok (.context (.obj [("count", .int 1), ("label", .str "a")]))⟩,
      ⟨second, .error reason⟩,
      ⟨third, .ok (.context (.obj [("count", .int 3), ("label", .str "a")]))⟩] ∧
    Runs chart {} (.bare "GO") (.obj [("count", .int 0)]) run
      (reached [first, second, third]).context ∧
    (reached [first]).context.field? "count" = some (.int 1) ∧
    (reached [first]).context.field? "label" = some (.str "a") ∧
    (reached [first, second]).context = (reached [first]).context ∧
    (reached [first, second, third]).context.field? "count" = some (.int 3) ∧
    (reached [first, second, third]).context.field? "label" =
      (reached [first, second]).context.field? "label" ∧
    (reached [first, second, third]).raised = [⟨"error.execution",
      .obj [("action", .str "harel.assign"), ("reason", .str reason)]⟩]
  := by
  intro chart first second third reason reached
  obtain ⟨run, -, hruns, hunique, -, hturns, -, -, hraised, -⟩ :=
    collect_eq_runs chart {} (.bare "GO") { context := .obj [("count", .int 0)] }
      [first, second, third]
  have hrun := hunique
    [⟨first, .ok (.context (.obj [("count", .int 1), ("label", .str "a")]))⟩,
      ⟨second, .error reason⟩,
      ⟨third, .ok (.context (.obj [("count", .int 3), ("label", .str "a")]))⟩]
    (.obj [("count", .int 3), ("label", .str "a")]) rfl
    (.cons (ends_iff.mpr rfl) (.cons (ends_iff.mpr rfl) (.cons (ends_iff.mpr rfl) .nil)))
  subst hrun
  obtain ⟨-, -, fields, hfields, hfirst⟩ := (hturns [] _ _ rfl).fields ⟨_, _, rfl⟩ _ rfl
  cases Mapping.evaluates_iff.mp hfields
  obtain ⟨-, -, fields, hfields, hthird⟩ :=
    (hturns [_, _] _ [] rfl).fields ⟨_, _, rfl⟩ _ rfl
  cases Mapping.evaluates_iff.mp hfields
  have hfailed : ¬ Ended.Assigns ⟨second, .error reason⟩ := by
    rintro ⟨mapping, next, heq⟩
    cases congrArg Ended.ending heq
  have hsecond := (hturns [_] _ _ rfl).kept hfailed
  exact ⟨_, rfl, hruns, hfirst "count", hfirst "label", hsecond, hthird "count", hthird "label",
    hraised⟩

end Collection

end Statechart
