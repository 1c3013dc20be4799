import Statechart.Json.Basic
import Statechart.Text.Segments

/-!
# State values

The address of the active leaves of a machine: the key of a leaf, or a branch that names
the active children.  The keys of a branch are in increasing order.  `leafPaths` lists the
addressed leaves, `covers` asks whether a dotted path is active.
-/

namespace Statechart

/-- The address of the active leaves. -/
inductive StateValue where
  | leaf (key : String)
  | branch (children : List (String × StateValue))
  deriving Inhabited, Repr

namespace StateValue

mutual

/-- Equality of addresses. -/
def beq : StateValue → StateValue → Bool
  | .leaf a, .leaf b => a == b
  | .branch a, .branch b => beqChildren a b
  | _, _ => false

/-- Equality child by child. -/
def beqChildren : List (String × StateValue) → List (String × StateValue) → Bool
  | [], [] => true
  | (k, a) :: as, (l, b) :: bs => k == l && beq a b && beqChildren as bs
  | _, _ => false

end

instance : BEq StateValue := ⟨beq⟩

/-- Whether the path of the given keys is active. -/
def coversKeys (value : StateValue) : List String → Bool
  | [] => true
  | key :: rest =>
    match value with
    | .leaf own => rest.isEmpty && own == key
    | .branch children =>
      match children.lookup key with
      | some child => coversKeys child rest
      | none => false

/-- Whether a dotted path is active; empty segments do not count. -/
def covers (value : StateValue) (path : String) : Bool :=
  value.coversKeys ((Text.segments '.' path).filter (· ≠ ""))

mutual

/-- The number of addressed leaves. -/
def leafCount : StateValue → Nat
  | .leaf _ => 1
  | .branch children => leafCountAll children

/-- The number of leaves that the children address. -/
def leafCountAll : List (String × StateValue) → Nat
  | [] => 0
  | (_, child) :: rest => leafCount child + leafCountAll rest

end

/-- The path `key` below the path `path`. -/
def pathBelow (path key : String) : String :=
  if path = "" then key else path ++ "." ++ key

mutual

/-- The dotted paths of the addressed leaves, below the path `path`. -/
def leafPathsFrom (path : String) : StateValue → List String
  | .leaf key => [pathBelow path key]
  | .branch children => leafPathsAll path children

/-- The paths of the leaves that the children address. -/
def leafPathsAll (path : String) : List (String × StateValue) → List String
  | [] => []
  | (key, child) :: rest => leafPathsFrom (pathBelow path key) child ++ leafPathsAll path rest

end

/-- The dotted paths of the addressed leaves. -/
def leafPaths (value : StateValue) : List String :=
  value.leafPathsFrom ""

/-- The address that a nonempty row of keys spells: a chain of branches to a leaf. -/
def ofKeys : List String → StateValue
  | [] => .leaf ""
  | [key] => .leaf key
  | key :: rest => .branch [(key, ofKeys rest)]

/-- The address that a dotted path spells. -/
def ofPath (path : String) : StateValue :=
  ofKeys (Text.segments '.' path)

/-- The leaf paths, with a comma between them. -/
def text : StateValue → String
  | .leaf key => key
  | value => Text.join ", " value.leafPaths

mutual

/-- An address as a value: a string or an object. -/
def toJson : StateValue → Json
  | .leaf key => .str key
  | .branch children => .obj (toJsonAll children)

/-- The fields of a branch. -/
def toJsonAll : List (String × StateValue) → List (String × Json)
  | [] => []
  | (key, child) :: rest => (key, toJson child) :: toJsonAll rest

end

mutual

/-- The address that a value spells. -/
def ofJson? : Json → Option StateValue
  | .str key => some (.leaf key)
  | .obj fields => (ofFields? fields).map (fun cs => .branch (Association.sorted cs))
  | _ => none

/-- The children that fields spell. -/
def ofFields? : List (String × Json) → Option (List (String × StateValue))
  | [] => some []
  | (key, value) :: rest => do
    let child ← ofJson? value
    let children ← ofFields? rest
    some ((key, child) :: children)

end

end StateValue

end Statechart
