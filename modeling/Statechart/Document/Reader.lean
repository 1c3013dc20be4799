import Statechart.Document.Basic
import Statechart.Action.Codec
import Statechart.Json.Record

/-!
# Reading machines

`Document.Machine.ofJson?` reads a machine document.  The root must be an object; states
below it, transitions and invocations are records.  Where a list is due, a single item
stands for itself.
-/

namespace Statechart

/-- The constant that a value names: a string, or an object with the name as its single
key over nothing. -/
def constantName? : Json → Option String
  | .str name => some name
  | .obj [(name, .null)] => some name
  | .obj [(name, .obj [])] => some name
  | _ => none

/-- The history depth that a value spells. -/
def HistoryDepth.ofJson? (value : Json) : Option HistoryDepth :=
  match constantName? value with
  | some "shallow" => some .shallow
  | some "deep" => some .deep
  | _ => none

/-- The state type that a value spells. -/
def StateType.ofJson? (value : Json) : Option StateType :=
  match constantName? value with
  | some "atomic" => some .atomic
  | some "compound" => some .compound
  | some "parallel" => some .parallel
  | some "final" => some .final
  | some "history" => some .history
  | _ => none

namespace Document

open Json (record? single? required? defaulted? optional? flag?)

/-- One item or a list of items. -/
def oneOrMany? {α : Type} (read : Json → Option α) (value : Json) : Option (List α) :=
  match value with
  | .arr items =>
    match items.mapM read with
    | some found => some found
    | none => (read value).map (fun a => [a])
  | _ => (read value).map (fun a => [a])

/-- The entries of an object whose keys do not repeat. -/
def entries? {α : Type} (read : Json → Option α) : Json → Option (List (String × α))
  | .obj fields =>
    if (fields.map Prod.fst).Nodup then
      fields.mapM (fun f => (read f.2).map (fun a => (f.1, a)))
    else none
  | _ => none

/-- The transition that a value spells: a target, or a record. -/
def Transition.ofJson? (value : Json) : Option Transition :=
  match value with
  | .str target => some { targets := [target] }
  | _ => do
    let fields ← record? ["target", "guard", "actions", "internal"] value
    let targets ← optional? fields ["target"] (oneOrMany? Json.string?)
    let guard ← optional? fields ["guard", "cond"] Json.string?
    let actions ← defaulted? fields ["actions"] [] (oneOrMany? Action.ofJson?)
    let internal ← defaulted? fields ["internal"] false flag?
    some { targets := targets.getD [], guard, actions, internal }

/-- The transitions that a value spells. -/
def transitions? : Json → Option (List Transition) :=
  oneOrMany? Transition.ofJson?

/-- The invocation that a value spells. -/
def Invocation.ofJson? (value : Json) : Option Invocation := do
  let fields ← record? ["id", "src", "forward", "data", "onDone", "onError"] value
  let id ← optional? fields ["id"] Json.string?
  let src ← required? fields ["src"] Json.string?
  let forward ← defaulted? fields ["forward", "autoForward"] false flag?
  let data ← optional? fields ["data"] Mapping.ofJson?
  let onDone ← defaulted? fields ["onDone"] [] transitions?
  let onError ← defaulted? fields ["onError"] [] transitions?
  some { id, src, forward, data, onDone, onError }

/-- What the fields of a state declare, its children apart. -/
def Declaration.ofFields? (fields : List (String × Json)) : Option Declaration := do
  let id ← optional? fields ["id"] Json.string?
  let type ← optional? fields ["type"] StateType.ofJson?
  let initial ← optional? fields ["initial"] Json.string?
  let _ ← single? ["states"] fields
  let on ← defaulted? fields ["on"] [] (entries? transitions?)
  let always ← defaulted? fields ["always"] [] transitions?
  let after ← defaulted? fields ["after"] [] (entries? transitions?)
  let entry ← defaulted? fields ["entry"] [] (oneOrMany? Action.ofJson?)
  let exit ← defaulted? fields ["exit"] [] (oneOrMany? Action.ofJson?)
  let invoke ← defaulted? fields ["invoke"] [] (oneOrMany? Invocation.ofJson?)
  let onDone ← defaulted? fields ["onDone"] [] transitions?
  let data ← optional? fields ["data"] Mapping.ofJson?
  let history ← optional? fields ["history"] HistoryDepth.ofJson?
  let target ← optional? fields ["target"] Json.string?
  some { id, type, initial, on, always, after, entry, exit, invoke, onDone, data, history, target }

/-- The names of the fields of a state, in order. -/
def stateFieldNames : List String :=
  ["id", "type", "initial", "states", "on", "always", "after", "entry", "exit", "invoke",
    "onDone", "data", "history", "target"]

namespace State

mutual

/-- The state that a value spells. -/
def ofJson? : Json → Option State
  | .obj fields => do
    let children ← childrenIn? fields
    let own ← Declaration.ofFields? fields
    some (.node own children)
  | .arr items =>
    if items.length ≤ stateFieldNames.length then do
      let children ← childrenAt? stateFieldNames items
      let own ← Declaration.ofFields? (stateFieldNames.zip items)
      some (.node own children)
    else none
  | _ => none

/-- The children under the field `states`. -/
def childrenIn? : List (String × Json) → Option (List (String × State))
  | [] => some []
  | (key, value) :: rest => if key = "states" then children? value else childrenIn? rest

/-- The children under the item that stands for the field `states`. -/
def childrenAt? : List String → List Json → Option (List (String × State))
  | name :: names, value :: rest =>
    if name = "states" then children? value else childrenAt? names rest
  | _, _ => some []

/-- The children that an object spells, whose keys do not repeat. -/
def children? : Json → Option (List (String × State))
  | .obj fields => if (fields.map Prod.fst).Nodup then childrenOf? fields else none
  | _ => none

/-- The children that fields spell. -/
def childrenOf? : List (String × Json) → Option (List (String × State))
  | [] => some []
  | (key, value) :: rest => do
    let child ← ofJson? value
    let children ← childrenOf? rest
    some ((key, child) :: children)

end

end State

/-- The machine that a value spells: an object with the fields of the root state and a
context. -/
def Machine.ofJson? (value : Json) : Option Machine :=
  match value with
  | .obj fields => do
    let context ← defaulted? fields ["context"] .null (fun v => some v.merged)
    let root ← State.ofJson? value
    some { context, root }
  | _ => none

end Document

end Statechart
