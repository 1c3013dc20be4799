import Statechart.Action.Collection
import Statechart.Proofs.Association
import Statechart.Proofs.Outcome

/-!
# Endings of actions

What becomes of an action, rule by rule: `Ends` has one rule for each way in which an action of
each kind succeeds or fails, and every action ends in exactly one way, which is its outcome
(`ends_iff`).
-/

namespace Statechart

/-! ### Mappings -/

namespace Mapping

/-- The values of entries, all in one context, or the reason of the first entry that fails. -/
inductive Evaluates (functions : Named (Computation Json)) (context : Json) (trigger : Event) :
    List (String × Expression) → Except String (List (String × Json)) → Prop
  | nil : Evaluates functions context trigger [] (.ok [])
  | cons {key e value rest fields} :
    e.eval functions context trigger = .ok value →
    Evaluates functions context trigger rest (.ok fields) →
    Evaluates functions context trigger ((key, e) :: rest) (.ok ((key, value) :: fields))
  | first {key e rest reason} :
    e.eval functions context trigger = .error reason →
    Evaluates functions context trigger ((key, e) :: rest) (.error reason)
  | later {key e value rest reason} :
    e.eval functions context trigger = .ok value →
    Evaluates functions context trigger rest (.error reason) →
    Evaluates functions context trigger ((key, e) :: rest) (.error reason)

/-- The context after a mapping, or the reason why there is none.  Fields are written into an
object, or into an empty one where there is nothing. -/
inductive Applies (functions : Named (Computation Json)) (trigger : Event) :
    Json → Mapping → Except String Json → Prop
  | whole {context e} : Applies functions trigger context (.whole e)
      (e.eval functions context trigger)
  | object {own entries fields written} :
    Evaluates functions (.obj own) trigger entries (.ok fields) →
    Association.Writes own fields written →
    Applies functions trigger (.obj own) (.fields entries) (.ok (.obj written))
  | null {entries fields written} :
    Evaluates functions .null trigger entries (.ok fields) →
    Association.Writes [] fields written →
    Applies functions trigger .null (.fields entries) (.ok (.obj written))
  | failed {context entries reason} :
    (context = .null ∨ ∃ own, context = .obj own) →
    Evaluates functions context trigger entries (.error reason) →
    Applies functions trigger context (.fields entries) (.error reason)
  | noObject {context entries} :
    context ≠ .null → (∀ own, context ≠ .obj own) →
    Applies functions trigger context (.fields entries)
      (.error ("cannot assign fields on non-object context " ++ context.compact))

/-- Mappings are applied one after the other, each to the context that the one before it makes. -/
inductive AppliesAll (functions : Named (Computation Json)) (trigger : Event) :
    Json → List Mapping → Json → Prop
  | nil {context} : AppliesAll functions trigger context [] context
  | cons {context mapping next mappings last} :
    Applies functions trigger context mapping (.ok next) →
    AppliesAll functions trigger next mappings last →
    AppliesAll functions trigger context (mapping :: mappings) last

/-- Whether `next` is the context with fields assigned, read key by key: it is an object in which a
key of the fields has the last value that is assigned to it, and any other key has the value that
it had.  The fields are evaluated in the context before, which is an object or nothing. -/
def Overlays (functions : Named (Computation Json)) (trigger : Event) (context : Json)
    (entries : List (String × Expression)) (next : Json) : Prop :=
  (context = .null ∨ ∃ own, context = .obj own) ∧ (∃ written, next = .obj written) ∧
    ∃ fields, Evaluates functions context trigger entries (.ok fields) ∧
      ∀ key, next.field? key =
        ((fields.filter (fun f => f.1 == key)).getLast?.map Prod.snd).or (context.field? key)

/-- The value of a mapping by itself, or the reason why there is none. -/
inductive Computes (functions : Named (Computation Json)) (context : Json) (trigger : Event) :
    Mapping → Except String Json → Prop
  | whole {e} : Computes functions context trigger (.whole e) (e.eval functions context trigger)
  | fields {entries fields} :
    Evaluates functions context trigger entries (.ok fields) →
    Computes functions context trigger (.fields entries) (.ok (.obj fields))
  | failed {entries reason} :
    Evaluates functions context trigger entries (.error reason) →
    Computes functions context trigger (.fields entries) (.error reason)

variable {functions : Named (Computation Json)} {context next : Json} {trigger : Event}
  {mapping : Mapping} {entries : List (String × Expression)}
  {own fields written : List (String × Json)}

/-- Laying fields over others writes them one after the other. -/
theorem writes_iff_overlay :
  Association.Writes own fields written ↔ overlay own fields = written
  := Association.writes_iff

/-- Of the fields that are laid over others the last value of a key counts, and a key that is not
among them keeps its value. -/
theorem lookup_overlay (own fields : List (String × Json)) (key : String) :
  (overlay own fields).lookup key =
    ((fields.filter (fun f => f.1 == key)).getLast?.map Prod.snd).or (own.lookup key)
  := Association.lookup_foldl_insert fields own key

theorem evalEntries_cons {key : String} {e : Expression} {rest : List (String × Expression)} :
  evalEntries functions ((key, e) :: rest) context trigger =
    (e.eval functions context trigger).bind (fun value =>
      (evalEntries functions rest context trigger).map ((key, value) :: ·))
  := by
  rw [evalEntries, List.mapM_cons]
  dsimp only
  cases e.eval functions context trigger with
  | error reason => rfl
  | ok value =>
    change (evalEntries functions rest context trigger >>= fun fields =>
      Except.ok ((key, value) :: fields)) = _
    cases evalEntries functions rest context trigger <;> rfl

theorem evaluates_iff {result : Except String (List (String × Json))} :
  Evaluates functions context trigger entries result ↔
    evalEntries functions entries context trigger = result
  := by
  constructor
  · intro h
    induction h with
    | nil => rfl
    | cons he _ ih => rw [evalEntries_cons, he, ih]; rfl
    | first he => rw [evalEntries_cons, he]; rfl
    | later he _ ih => rw [evalEntries_cons, he, ih]; rfl
  · rintro rfl
    induction entries with
    | nil => exact .nil
    | cons entry rest ih =>
      obtain ⟨key, e⟩ := entry
      rw [evalEntries_cons]
      cases he : e.eval functions context trigger with
      | error reason => exact .first he
      | ok value =>
        cases hrest : evalEntries functions rest context trigger with
        | error reason => exact .later he (hrest ▸ ih)
        | ok fields => exact .cons he (hrest ▸ ih)

theorem applies_iff {result : Except String Json} :
  Applies functions trigger context mapping result ↔
    mapping.apply functions context trigger = result
  := by
  constructor
  · intro h
    cases h with
    | whole => rfl
    | object h hwrites => rw [apply, evaluates_iff.mp h, ← writes_iff_overlay.mp hwrites]; rfl
    | null h hwrites => rw [apply, evaluates_iff.mp h, ← writes_iff_overlay.mp hwrites]; rfl
    | failed hcontext h =>
      rcases hcontext with rfl | ⟨own, rfl⟩ <;> rw [apply, evaluates_iff.mp h] <;> rfl
    | noObject hnull hobj =>
      cases context with
      | null => exact absurd rfl hnull
      | obj own => exact absurd rfl (hobj own)
      | _ => rfl
  · rintro rfl
    cases mapping with
    | whole e => exact .whole
    | fields entries =>
      have hevaluates : Evaluates functions context trigger entries _ := evaluates_iff.mpr rfl
      cases hentries : evalEntries functions entries context trigger with
      | error reason =>
        rw [hentries] at hevaluates
        cases context with
        | null =>
          rw [apply, hentries]
          exact .failed (.inl rfl) hevaluates
        | obj own =>
          rw [apply, hentries]
          exact .failed (.inr ⟨own, rfl⟩) hevaluates
        | _ => exact .noObject (by simp) (by simp)
      | ok fields =>
        rw [hentries] at hevaluates
        cases context with
        | null =>
          rw [apply, hentries]
          exact .null hevaluates (writes_iff_overlay.mpr rfl)
        | obj own =>
          rw [apply, hentries]
          exact .object hevaluates (writes_iff_overlay.mpr rfl)
        | _ => exact .noObject (by simp) (by simp)

/-- An assignment of fields writes the fields and nothing else. -/
theorem Applies.overlays (h : Applies functions trigger context (.fields entries) (.ok next)) :
  Overlays functions trigger context entries next
  := by
  cases h with
  | @object own _ fields _ hfields hwrites =>
    refine ⟨.inr ⟨own, rfl⟩, ⟨_, rfl⟩, fields, hfields, ?_⟩
    intro key
    rw [← writes_iff_overlay.mp hwrites]
    exact lookup_overlay own fields key
  | @null _ fields _ hfields hwrites =>
    refine ⟨.inl rfl, ⟨_, rfl⟩, fields, hfields, ?_⟩
    intro key
    rw [← writes_iff_overlay.mp hwrites]
    exact lookup_overlay [] fields key

theorem computes_iff {result : Except String Json} :
  Computes functions context trigger mapping result ↔
    mapping.evaluate functions context trigger = result
  := by
  constructor
  · intro h
    cases h with
    | whole => rfl
    | fields h => rw [evaluate, evaluates_iff.mp h]; rfl
    | failed h => rw [evaluate, evaluates_iff.mp h]; rfl
  · rintro rfl
    cases mapping with
    | whole e => exact .whole
    | fields entries =>
      have hevaluates : Evaluates functions context trigger entries _ := evaluates_iff.mpr rfl
      rw [evaluate]
      cases hentries : evalEntries functions entries context trigger with
      | error reason => exact .failed (hentries ▸ hevaluates)
      | ok fields => exact .fields (hentries ▸ hevaluates)

end Mapping

/-! ### Sends and starts -/

namespace Collection

/-- The microseconds of a delay, or the reason why there are none. -/
inductive Lasts (imps : Implementations) (context : Json) (trigger : Event) :
    Option Delay → Except String (Option Nat) → Prop
  | none : Lasts imps context trigger none (.ok none)
  | millis {n} : Lasts imps context trigger (some (.millis n)) (.ok (some (n * 1000)))
  | named {name f} : imps.delays name = some f →
    Lasts imps context trigger (some (.named name)) ((f context trigger).map some)
  | unknown {name} : imps.delays name = .none →
    Lasts imps context trigger (some (.named name)) (.error ("unknown delay '" ++ name ++ "'"))

/-- The evaluated send of an event after a delay, or the reason why there is none. -/
inductive Sends (imps : Implementations) (context : Json) (trigger : Event)
    (event : EventExpression) (delay : Option Delay) (target id : Option String) :
    Except String Send → Prop
  | sent {e d} : event.eval imps.functions context trigger = .ok e →
    Lasts imps context trigger delay (.ok d) →
    Sends imps context trigger event delay target id
      (.ok ⟨e, Destination.ofTarget target, d, id⟩)
  | noEvent {reason} : event.eval imps.functions context trigger = .error reason →
    Sends imps context trigger event delay target id (.error reason)
  | noDelay {e reason} : event.eval imps.functions context trigger = .ok e →
    Lasts imps context trigger delay (.error reason) →
    Sends imps context trigger event delay target id (.error reason)

/-- The duty to start the invocation with the given id, or the reason why its data fails.  An
unknown invocation is recorded as unresolved. -/
inductive Starts (chart : Chart) (imps : Implementations) (context : Json) (trigger : Event)
    (id : String) : Except String Duty → Prop
  | unknown : chart.invocation? id = none →
    Starts chart imps context trigger id (.ok (.unresolved ("unknown invocation '" ++ id ++ "'")))
  | bare {i} : chart.invocation? id = some i → i.data = none →
    Starts chart imps context trigger id (.ok (.start i none))
  | laden {i mapping value} : chart.invocation? id = some i → i.data = some mapping →
    mapping.Computes imps.functions context trigger (.ok value) →
    Starts chart imps context trigger id (.ok (.start i (some value)))
  | failed {i mapping reason} : chart.invocation? id = some i → i.data = some mapping →
    mapping.Computes imps.functions context trigger (.error reason) →
    Starts chart imps context trigger id (.error reason)

variable {chart : Chart} {imps : Implementations} {context : Json} {trigger : Event}

theorem lasts_iff {delay : Option Delay} {result : Except String (Option Nat)} :
  Lasts imps context trigger delay result ↔ delayOf imps delay context trigger = result
  := by
  constructor
  · intro h
    cases h with
    | none => rfl
    | millis => rfl
    | named h => rw [delayOf, h]
    | unknown h => rw [delayOf, h]
  · rintro rfl
    match delay with
    | none => exact .none
    | some (.millis n) => exact .millis
    | some (.named name) =>
      rw [delayOf]
      split
      · next h => exact .named h
      · next h => exact .unknown h

/-- A delay that is set lasts for some time. -/
theorem Lasts.exists_of_some {delay : Delay} {d : Option Nat}
    (h : Lasts imps context trigger (some delay) (.ok d)) :
  ∃ n, d = some n
  := by
  rw [lasts_iff] at h
  match delay with
  | .millis n =>
    cases h
    exact ⟨_, rfl⟩
  | .named name =>
    rw [delayOf] at h
    split at h
    · obtain ⟨n, -, rfl⟩ := Outcome.map_eq_ok.mp h
      exact ⟨n, rfl⟩
    · cases h

theorem sends_iff {event : EventExpression} {delay : Option Delay} {target id : Option String}
    {result : Except String Send} :
  Sends imps context trigger event delay target id result ↔
    sendOf imps event delay target id context trigger = result
  := by
  constructor
  · intro h
    cases h with
    | sent he hd => rw [sendOf, he, lasts_iff.mp hd]; rfl
    | noEvent he => rw [sendOf, he]; rfl
    | noDelay he hd => rw [sendOf, he, lasts_iff.mp hd]; rfl
  · rintro rfl
    rw [sendOf]
    cases he : event.eval imps.functions context trigger with
    | error reason => exact .noEvent he
    | ok e =>
      cases hd : delayOf imps delay context trigger with
      | error reason => exact .noDelay he (lasts_iff.mpr hd)
      | ok d => exact .sent he (lasts_iff.mpr hd)

theorem starts_iff {id : String} {result : Except String Duty} :
  Starts chart imps context trigger id result ↔ startOf chart imps id context trigger = result
  := by
  constructor
  · intro h
    cases h with
    | unknown hi => rw [startOf, hi]
    | bare hi hdata => rw [startOf, hi]; dsimp only; rw [hdata]
    | laden hi hdata h =>
      rw [startOf, hi]
      dsimp only
      rw [hdata]
      dsimp only
      rw [Mapping.computes_iff.mp h]
      rfl
    | failed hi hdata h =>
      rw [startOf, hi]
      dsimp only
      rw [hdata]
      dsimp only
      rw [Mapping.computes_iff.mp h]
      rfl
  · rintro rfl
    rw [startOf]
    cases hi : chart.invocation? id with
    | none => exact .unknown hi
    | some i =>
      dsimp only
      cases hdata : i.data with
      | none => exact .bare hi hdata
      | some mapping =>
        dsimp only
        cases h : mapping.evaluate imps.functions context trigger with
        | error reason => exact .failed hi hdata (Mapping.computes_iff.mpr h)
        | ok value => exact .laden hi hdata (Mapping.computes_iff.mpr h)

/-! ### Actions -/

/-- How an action ends in a context: with a new context, a raised event, a duty, or the reason of
a failure. -/
inductive Ends (chart : Chart) (imps : Implementations) (trigger : Event) (context : Json) :
    Action → Except String Outcome → Prop
  | named {name effect} : imps.actions name = some effect →
    Ends chart imps trigger context (.named name) (.ok (.duty (.execute effect)))
  | unknown {name} : imps.actions name = none →
    Ends chart imps trigger context (.named name)
      (.ok (.duty (.unresolved ("no implementation for action '" ++ name ++ "'"))))
  | inline {name effect} :
    Ends chart imps trigger context (.inline name effect) (.ok (.duty (.execute effect)))
  | assigned {mapping next} :
    mapping.Applies imps.functions trigger context (.ok next) →
    Ends chart imps trigger context (.assign mapping) (.ok (.context next))
  | unassigned {mapping reason} :
    mapping.Applies imps.functions trigger context (.error reason) →
    Ends chart imps trigger context (.assign mapping) (.error reason)
  | raised {event e} : event.eval imps.functions context trigger = .ok e →
    Ends chart imps trigger context (.raise event) (.ok (.raised e))
  | unraised {event reason} : event.eval imps.functions context trigger = .error reason →
    Ends chart imps trigger context (.raise event) (.error reason)
  | sent {event delay target id s} : Sends imps context trigger event delay target id (.ok s) →
    Ends chart imps trigger context (.send event delay target id) (.ok (.duty (.send s)))
  | unsent {event delay target id reason} :
    Sends imps context trigger event delay target id (.error reason) →
    Ends chart imps trigger context (.send event delay target id) (.error reason)
  | sentUp {event s} :
    Sends imps context trigger event none (some Destination.parentTarget) none (.ok s) →
    Ends chart imps trigger context (.sendParent event) (.ok (.duty (.send s)))
  | unsentUp {event reason} :
    Sends imps context trigger event none (some Destination.parentTarget) none (.error reason) →
    Ends chart imps trigger context (.sendParent event) (.error reason)
  | log {expression label} :
    Ends chart imps trigger context (.log expression label) (.ok (.duty (.log expression label)))
  | cancel {sendId} :
    Ends chart imps trigger context (.cancel sendId) (.ok (.duty (.cancel sendId)))
  | started {id duty} : Starts chart imps context trigger id (.ok duty) →
    Ends chart imps trigger context (.start id) (.ok (.duty duty))
  | unstarted {id reason} : Starts chart imps context trigger id (.error reason) →
    Ends chart imps trigger context (.start id) (.error reason)
  | stop {id} : Ends chart imps trigger context (.stop id) (.ok (.duty (.stop id)))

theorem Ends.outcome_eq {action : Action} {ending : Except String Outcome}
    (h : Ends chart imps trigger context action ending) :
  outcome chart imps action context trigger = ending
  := by
  cases h with
  | named h => rw [outcome, namedDuty, h]
  | unknown h => rw [outcome, namedDuty, h]
  | inline => rfl
  | assigned h => rw [outcome, Mapping.applies_iff.mp h]; rfl
  | unassigned h => rw [outcome, Mapping.applies_iff.mp h]; rfl
  | raised h => rw [outcome, h]; rfl
  | unraised h => rw [outcome, h]; rfl
  | sent h => rw [outcome, sends_iff.mp h]; rfl
  | unsent h => rw [outcome, sends_iff.mp h]; rfl
  | sentUp h => rw [outcome, sends_iff.mp h]; rfl
  | unsentUp h => rw [outcome, sends_iff.mp h]; rfl
  | log => rfl
  | cancel => rfl
  | started h => rw [outcome, starts_iff.mp h]; rfl
  | unstarted h => rw [outcome, starts_iff.mp h]; rfl
  | stop => rfl

theorem ends_outcome (action : Action) :
  Ends chart imps trigger context action (outcome chart imps action context trigger)
  := by
  cases action with
  | named name =>
    rw [outcome, namedDuty]
    split
    · next h => exact .named h
    · next h => exact .unknown h
  | inline name effect => exact .inline
  | assign mapping =>
    rw [outcome]
    cases h : mapping.apply imps.functions context trigger with
    | error reason => exact .unassigned (Mapping.applies_iff.mpr h)
    | ok next => exact .assigned (Mapping.applies_iff.mpr h)
  | raise event =>
    rw [outcome]
    cases h : event.eval imps.functions context trigger with
    | error reason => exact .unraised h
    | ok e => exact .raised h
  | send event delay target id =>
    rw [outcome]
    cases h : sendOf imps event delay target id context trigger with
    | error reason => exact .unsent (sends_iff.mpr h)
    | ok s => exact .sent (sends_iff.mpr h)
  | sendParent event =>
    rw [outcome]
    cases h : sendOf imps event none (some Destination.parentTarget) none context trigger with
    | error reason => exact .unsentUp (sends_iff.mpr h)
    | ok s => exact .sentUp (sends_iff.mpr h)
  | log expression label => exact .log
  | cancel sendId => exact .cancel
  | start id =>
    rw [outcome]
    cases h : startOf chart imps id context trigger with
    | error reason => exact .unstarted (starts_iff.mpr h)
    | ok duty => exact .started (starts_iff.mpr h)
  | stop id => exact .stop

/-- An action ends in one way, as its outcome. -/
theorem ends_iff {action : Action} {ending : Except String Outcome} :
  Ends chart imps trigger context action ending ↔
    outcome chart imps action context trigger = ending
  := by
  constructor
  · exact Ends.outcome_eq
  · rintro rfl
    exact ends_outcome action

end Collection

end Statechart
