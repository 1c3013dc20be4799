import Statechart.Association
import Statechart.Yaml.Node.Basic
import Statechart.Yaml.Token.Layout

/-!
# Reading documents

`Document.ofText?` reads a text that holds one document at most; a text without a document
has the empty node.  The readers take the tokens ahead and answer with a node and what
remains of the tokens; those that call each other count down a fuel, which the number of the
tokens bounds.
-/

namespace Statechart.Yaml

/-- The tokens ahead, and the numbers of the anchors by name. -/
structure Ahead where
  tokens : List Token
  anchors : List (String × Nat) := []

namespace Ahead

/-- The first token. -/
def first? (a : Ahead) : Option Token :=
  a.tokens.head?

/-- What is ahead behind the first token. -/
def rest (a : Ahead) : Ahead :=
  { a with tokens := a.tokens.tail }

/-- Whether the first token is one of the given ones. -/
def startsWith (a : Ahead) (ts : List Token) : Bool :=
  a.first?.any ts.contains

/-- What is ahead behind a token that must come first. -/
def behind? (a : Ahead) (t : Token) : Option Ahead :=
  if a.startsWith [t] then some a.rest else none

/-- The number for an anchor of the given name, and what is ahead with the name bound to
it: so many different names were there before. -/
def number (a : Ahead) (name : String) : Nat × Ahead :=
  (a.anchors.length, { a with anchors := Association.insert name a.anchors.length a.anchors })

end Ahead

/-- What the handles of tags stand for. -/
abbrev Handles := List (String × String)

/-- The handles that need no directive. -/
def defaultHandles : Handles :=
  [("!", "!"), ("!!", "tag:yaml.org,2002:")]

/-- The full name of a tag. -/
def Tag.name? (handles : Handles) (t : Tag) : Option String :=
  if t.handle = "" then some t.suffix else (handles.lookup t.handle).map (· ++ t.suffix)

/-- The anchor and the tag before a node. -/
structure Properties where
  anchor : Option String := none
  tag : Option Tag := none
  deriving DecidableEq, Repr

/-- The anchor and the tag ahead, in either order, and what is ahead behind them. -/
def readProperties (a : Ahead) : Properties × Ahead :=
  match a.tokens with
  | .anchor name :: .tag t :: rest => ({ anchor := some name, tag := some t }, { a with tokens := rest })
  | .anchor name :: rest => ({ anchor := some name }, { a with tokens := rest })
  | .tag t :: .anchor name :: rest => ({ anchor := some name, tag := some t }, { a with tokens := rest })
  | .tag t :: rest => ({ tag := some t }, { a with tokens := rest })
  | _ => ({}, a)

/-- What may stand in a place besides scalars and flow collections. -/
structure Place where
  /-- Whether block collections may. -/
  blocks : Bool
  /-- Whether the items of a sequence may that is not indented. -/
  bareItems : Bool

/-- A place within a flow collection. -/
def Place.flow : Place := ⟨false, false⟩

/-- A place for a block. -/
def Place.block : Place := ⟨true, false⟩

/-- The place of a key or a value of a block mapping. -/
def Place.entry : Place := ⟨true, true⟩

mutual

/-- A node in a place. -/
def readNode (handles : Handles) : Nat → Place → Ahead → Option (Node × Ahead)
  | 0, _, _ => none
  | fuel + 1, place, a =>
    match a.first? with
    | some (.alias name) => (a.anchors.lookup name).map (fun number => (.alias number, a.rest))
    | _ => do
      let (properties, a) := readProperties a
      let tag ← match properties.tag with
        | some t => (t.name? handles).map some
        | none => some none
      match properties.anchor with
      | none => readContent handles fuel place tag tag.isSome a
      | some name =>
        let (number, a) := a.number name
        let (node, a) ← readContent handles fuel place tag true a
        some (.anchored number node, a)

/-- A node behind its properties; if it has any, it may be empty. -/
def readContent (handles : Handles) :
    Nat → Place → Option String → Bool → Ahead → Option (Node × Ahead)
  | 0, _, _, _, _ => none
  | fuel + 1, place, tag, hasProperties, a =>
    let collection (ofItems : List Node → Node) : Option (List Node × Ahead) → Option (Node × Ahead) :=
      Option.map (fun (items, a) => (ofItems items, a))
    let mapping : Option (List (Node × Node) × Ahead) → Option (Node × Ahead) :=
      Option.map (fun (entries, a) => (.mapping entries, a))
    match a.first?, place.blocks with
    | some (.scalar style text), _ => some (.scalar style (tag.filter (· ≠ "!")) text, a.rest)
    | some .sequenceStart, _ =>
      collection .sequence (readFlowItems handles fuel true a.rest)
    | some .mappingStart, _ => mapping (readFlowEntries handles fuel true a.rest)
    | some .blockSequence, true => collection .sequence (readItems handles fuel a.rest)
    | some .blockMapping, true => mapping (readEntries handles fuel a.rest)
    | _, _ =>
      if place.bareItems && a.startsWith [.item] then
        collection .sequence (readBareItems handles fuel a)
      else if hasProperties then some (.scalar .plain tag "", a)
      else none

/-- The node in a place, or the empty node before one of the given tokens. -/
def readUnless (handles : Handles) :
    Nat → Place → List Token → Ahead → Option (Node × Ahead)
  | 0, _, _, _ => none
  | fuel + 1, place, ends, a =>
    if a.startsWith ends then some (.empty, a) else readNode handles fuel place a

/-- The items of a block sequence, whose mark is read. -/
def readItems (handles : Handles) : Nat → Ahead → Option (List Node × Ahead)
  | 0, _ => none
  | fuel + 1, a =>
    if a.startsWith [.blockEnd] then some ([], a.rest)
    else do
      let a ← a.behind? .item
      let (node, a) ← readUnless handles fuel .block [.item, .blockEnd] a
      let (nodes, a) ← readItems handles fuel a
      some (node :: nodes, a)

/-- The items of a sequence that is not indented within its mapping. -/
def readBareItems (handles : Handles) : Nat → Ahead → Option (List Node × Ahead)
  | 0, _ => none
  | fuel + 1, a =>
    match a.behind? .item with
    | none => some ([], a)
    | some a => do
      let (node, a) ← readUnless handles fuel .block [.item, .key, .value, .blockEnd] a
      let (nodes, a) ← readBareItems handles fuel a
      some (node :: nodes, a)

/-- The entries of a block mapping, whose mark is read. -/
def readEntries (handles : Handles) : Nat → Ahead → Option (List (Node × Node) × Ahead)
  | 0, _ => none
  | fuel + 1, a =>
    if a.startsWith [.blockEnd] then some ([], a.rest)
    else do
      let ends := [Token.key, .value, .blockEnd]
      let a ← a.behind? .key
      let (key, a) ← readUnless handles fuel .entry ends a
      let (value, a) ← match a.behind? .value with
        | none => some (.empty, a)
        | some a => readUnless handles fuel .entry ends a
      let (entries, a) ← readEntries handles fuel a
      some ((key, value) :: entries, a)

/-- The items of a flow sequence, whose start is read; a comma stands before all but the
first.  A key makes an item a mapping of one entry. -/
def readFlowItems (handles : Handles) : Nat → Bool → Ahead → Option (List Node × Ahead)
  | 0, _, _ => none
  | fuel + 1, isFirst, a =>
    if a.startsWith [.sequenceEnd] then some ([], a.rest)
    else do
      let a ← if isFirst then some a else a.behind? .comma
      if a.startsWith [.sequenceEnd] then some ([], a.rest)
      else do
        let (node, a) ← match a.behind? .key with
          | none => readNode handles fuel .flow a
          | some a => readPair handles fuel a
        let (nodes, a) ← readFlowItems handles fuel false a
        some (node :: nodes, a)

/-- The mapping of one entry that an item of a flow sequence is, whose mark of a key is
read.  The token behind an empty key is passed over. -/
def readPair (handles : Handles) : Nat → Ahead → Option (Node × Ahead)
  | 0, _ => none
  | fuel + 1, a => do
    let ends := [Token.comma, .sequenceEnd]
    let (key, a) ←
      if a.startsWith (.value :: ends) then some (.empty, a.rest)
      else readNode handles fuel .flow a
    let (value, a) ← match a.behind? .value with
      | none => some (.empty, a)
      | some a => readUnless handles fuel .flow ends a
    some (.mapping [(key, value)], a)

/-- The entries of a flow mapping, whose start is read; a comma stands before all but the
first.  Without a mark of a key there is no value. -/
def readFlowEntries (handles : Handles) :
    Nat → Bool → Ahead → Option (List (Node × Node) × Ahead)
  | 0, _, _ => none
  | fuel + 1, isFirst, a =>
    if a.startsWith [.mappingEnd] then some ([], a.rest)
    else do
      let a ← if isFirst then some a else a.behind? .comma
      if a.startsWith [.mappingEnd] then some ([], a.rest)
      else do
        let ends := [Token.comma, .mappingEnd]
        let (entry, a) ← match a.behind? .key with
          | none => do
            let (key, a) ← readNode handles fuel .flow a
            some ((key, Node.empty), a)
          | some a => do
            let (key, a) ← readUnless handles fuel .flow (.value :: ends) a
            let (value, a) ← match a.behind? .value with
              | none => some (.empty, a)
              | some a => readUnless handles fuel .flow ends a
            some ((key, value), a)
        let (entries, a) ← readFlowEntries handles fuel false a
        some (entry :: entries, a)

end

/-- Directives that may stand together before a document: one version at most, which is 1.1
or 1.2, and one meaning at most for a handle.  The handles that they declare. -/
def handlesOf? (directives : List Directive) : Option Handles :=
  let handles := directives.filterMap (fun d => match d with
    | .handle name meaning => some (name, meaning)
    | .version .. => none)
  let versions := directives.filterMap (fun d => match d with
    | .version major minor => some (major, minor)
    | .handle .. => none)
  if versions.length ≤ 1 ∧ versions.all [(1, 1), (1, 2)].contains ∧
      (handles.map Prod.fst).Nodup then
    some (handles ++ defaultHandles)
  else none

/-- The outermost node of a document, and the tokens behind it.  Only a document that begins
with a line of its own may have directives, and may be empty. -/
def readRoot (tokens : List Token) : Option (Node × List Token) := do
  let fuel := 4 * (tokens.length + 1)
  let directives := tokens.filterMap (fun t => match t with
    | .directive d => some d
    | _ => none)
  let leading := tokens.takeWhile (fun t => t matches .directive _)
  match tokens.drop leading.length with
  | .documentStart :: rest => do
    let handles ← handlesOf? (directives.take leading.length)
    if rest.isEmpty ∨ rest.head?.any [Token.documentStart, .documentEnd].contains then
      some (.empty, rest)
    else
      let (node, a) ← readNode handles fuel .block { tokens := rest }
      some (node, a.tokens)
  | [] => if leading.isEmpty then some (.empty, []) else none
  | _ =>
    if leading.isEmpty then do
      let (node, a) ← readNode defaultHandles fuel .block { tokens }
      some (node, a.tokens)
    else none

/-- The document that a text holds; behind it only lines that end documents may stand. -/
def Document.ofText? (text : String) : Option Document := do
  let (root, rest) ← readRoot (← Token.ofSource? (← source? text))
  if rest.all (· == .documentEnd) then some { root } else none

end Statechart.Yaml
