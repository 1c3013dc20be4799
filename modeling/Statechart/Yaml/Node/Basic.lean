import Statechart.Yaml.Scalar.Basic

/-!
# Nodes

The content of a YAML document is a tree of scalars, sequences and mappings.  A node may
carry the number of an anchor, and an alias stands for the node that carries its number:
for the last of them, if there are several.
-/

namespace Statechart.Yaml

/-- A node.  The tag of a scalar is its full name. -/
inductive Node where
  | scalar (style : ScalarStyle) (tag : Option String) (text : String)
  | sequence (items : List Node)
  | mapping (entries : List (Node × Node))
  | anchored (number : Nat) (node : Node)
  | alias (number : Nat)

namespace Node

/-- The node that stands where nothing is written. -/
def empty : Node :=
  .scalar .plain none ""

mutual

/-- The nodes that carry an anchor, with its number, in the order of the document. -/
def anchors : Node → List (Nat × Node)
  | .scalar .. => []
  | .sequence items => anchorsOfItems items
  | .mapping entries => anchorsOfEntries entries
  | .anchored number node => (number, node) :: anchors node
  | .alias _ => []

/-- The anchored nodes of the items. -/
def anchorsOfItems : List Node → List (Nat × Node)
  | [] => []
  | node :: rest => anchors node ++ anchorsOfItems rest

/-- The anchored nodes of the entries. -/
def anchorsOfEntries : List (Node × Node) → List (Nat × Node)
  | [] => []
  | (key, value) :: rest => anchors key ++ anchors value ++ anchorsOfEntries rest

end

end Node

/-- A document: its outermost node, and the anchored nodes within, the last first. -/
structure Document where
  root : Node
  anchors : List (Nat × Node) := root.anchors.reverse

/-- The node that a node of a document stands for, without its anchor. -/
def Document.target? (d : Document) : Node → Option Node
  | .alias number => d.anchors.lookup number
  | .anchored _ node => some node
  | node => some node

end Statechart.Yaml
