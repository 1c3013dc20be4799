import Statechart.Document.Basic
import Statechart.Action.Codec

/-!
# Written machines

The JSON form of machine documents.  Fields come in a fixed order, and a field that holds
its default value is left out.
-/

namespace Statechart

/-- The written form. -/
def HistoryDepth.toJson : HistoryDepth → Json
  | .shallow => .str "shallow"
  | .deep => .str "deep"

/-- The written form. -/
def StateType.toJson : StateType → Json
  | .atomic => .str "atomic"
  | .compound => .str "compound"
  | .parallel => .str "parallel"
  | .final => .str "final"
  | .history => .str "history"

namespace Document

/-- A list, left out when it is empty. -/
def listField {α : Type} (write : α → Json) (items : List α) : Option Json :=
  if items.isEmpty then none else some (.arr (items.map write))

/-- A flag, left out when it does not hold. -/
def flagField (b : Bool) : Option Json :=
  if b then some (.bool true) else none

/-- The written form. -/
def Transition.toJson (t : Transition) : Json :=
  Json.objOf [("target", listField Json.str t.targets), ("guard", t.guard.map Json.str),
    ("actions", listField Action.toJson t.actions), ("internal", flagField t.internal)]

/-- Candidates by key, left out when there are none. -/
def candidatesField (entries : List (String × List Transition)) : Option Json :=
  if entries.isEmpty then none
  else some (.obj (entries.map (fun e => (e.1, .arr (e.2.map Transition.toJson)))))

/-- The written form. -/
def Invocation.toJson (i : Invocation) : Json :=
  Json.objOf [("id", i.id.map Json.str), ("src", some (.str i.src)),
    ("forward", flagField i.forward), ("data", i.data.map Mapping.toJson),
    ("onDone", listField Transition.toJson i.onDone),
    ("onError", listField Transition.toJson i.onError)]

/-- The fields of a declaration, with the written children among them. -/
def Declaration.fields (d : Declaration) (states : Option Json) :
    List (String × Option Json) :=
  [("id", d.id.map Json.str), ("type", d.type.map StateType.toJson),
    ("initial", d.initial.map Json.str), ("states", states),
    ("on", candidatesField d.on), ("always", listField Transition.toJson d.always),
    ("after", candidatesField d.after), ("entry", listField Action.toJson d.entry),
    ("exit", listField Action.toJson d.exit), ("invoke", listField Invocation.toJson d.invoke),
    ("onDone", listField Transition.toJson d.onDone), ("data", d.data.map Mapping.toJson),
    ("history", d.history.map HistoryDepth.toJson), ("target", d.target.map Json.str)]

/-- The written children, left out when there are none. -/
def statesField (children : List (String × Json)) : Option Json :=
  if children.isEmpty then none else some (.obj children)

namespace State

mutual

/-- The written form. -/
def toJson : State → Json
  | .node own children => Json.objOf (own.fields (statesField (childrenJson children)))

/-- The written forms of the children. -/
def childrenJson : List (String × State) → List (String × Json)
  | [] => []
  | (key, child) :: rest => (key, toJson child) :: childrenJson rest

end

end State

/-- The written form, in which keys of one object may repeat. -/
def Machine.toJson (m : Machine) : Json :=
  let context := if m.context.isNull then none else some m.context
  match m.root with
  | .node own children =>
    Json.objOf (("context", context) :: own.fields (statesField (State.childrenJson children)))

end Document

end Statechart
