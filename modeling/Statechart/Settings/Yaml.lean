import Statechart.Settings.Basic
import Statechart.Yaml.Node.Reader

/-!
# Settings files

Settings files are YAML documents: a mapping with the sections of the settings, which are
mappings themselves.  `Settings.ofYaml?` reads a file, and `Settings.toYaml` writes one.
-/

namespace Statechart

namespace Yaml

/-- A scalar, as its style, its tag and its text. -/
structure Scalar where
  style : ScalarStyle
  tag : Option String
  text : String
  deriving DecidableEq, Repr

/-- The scalar that a node stands for. -/
def Document.scalar? (d : Document) (node : Node) : Option Scalar :=
  match d.target? node with
  | some (.scalar style tag text) => some ⟨style, tag, text⟩
  | _ => none

/-- The text of the scalar that a node stands for. -/
def Document.text? (d : Document) (node : Node) : Option String :=
  (d.scalar? node).map Scalar.text

/-- The fields of the mapping that a node stands for; where nothing is written, there are
no fields. -/
def Document.fields? (d : Document) (node : Node) : Option (List (String × Node)) :=
  match d.target? node with
  | some (.mapping entries) => entries.mapM (fun e => (d.text? e.1).map (·, e.2))
  | some (.scalar .plain _ "") => some []
  | _ => none

/-- The value of a field that has a default when it is absent; a field that is repeated is
refused. -/
def defaulted? {α : Type} (fields : List (String × Node)) (key : String) (default : α)
    (read : Node → Option α) : Option α :=
  match fields.filter (fun f => f.1 == key) with
  | [] => some default
  | [f] => read f.2
  | _ => none

/-- The text of a scalar that may be something else than a string: a plain one, or a literal
one with the given tag. -/
def Scalar.resolvable? (s : Scalar) (tag : String) : Option String :=
  if s.style = .plain ∨ (s.style = .literal ∧ s.tag = some ("tag:yaml.org,2002:" ++ tag)) then
    some s.text
  else none

/-- The natural number below `2 ^ 64` that a text denotes: decimal digits, of which
several do not begin with a zero, or digits of base sixteen, eight or two after `0x`, `0o`
or `0b`. -/
def natural? (text : String) : Option Nat :=
  match Decimal.unsigned text.toList with
  | '0' :: 'x' :: d :: ds => (ofBase? 16 0 (d :: ds)).filter (· < 1 <<< 64)
  | '0' :: 'o' :: d :: ds => (ofBase? 8 0 (d :: ds)).filter (· < 1 <<< 64)
  | '0' :: 'b' :: d :: ds => (ofBase? 2 0 (d :: ds)).filter (· < 1 <<< 64)
  | '0' :: _ :: _ => none
  | _ => Decimal.natural? (1 <<< 64) text

/-- The truth value that a text denotes. -/
def flag? (text : String) : Option Bool :=
  if ["true", "True", "TRUE"].contains text then some true
  else if ["false", "False", "FALSE"].contains text then some false
  else none

/-- Whether a scalar says that there is no value. -/
def Scalar.isNull (s : Scalar) : Bool :=
  s.style == .plain && ["", "~", "null", "Null", "NULL"].contains s.text

/-- The name that a tag of the file's own gives. -/
def Scalar.localTag? (s : Scalar) : Option String :=
  s.tag.bind (fun tag => match tag.toList with
    | ['!'] => some tag
    | '!' :: name => some (String.ofList name)
    | _ => none)

/-- One of several things that a scalar names: by its text, or by its tag if there is no
value. -/
def Scalar.choice? (s : Scalar) : Option String :=
  match s.localTag? with
  | none => some s.text
  | some name => if s.isNull then some name else none

end Yaml

namespace Settings

open Yaml (defaulted?)

/-- The settings that a file spells; what it leaves out has its default. -/
def ofYaml? (text : String) : Option Settings := do
  let d ← Yaml.Document.ofText? text
  let fields ← d.fields? d.root
  let default : Settings := {}
  let interpreter ← defaulted? fields "interpreter" [] d.fields?
  let logging ← defaulted? fields "logging" [] d.fields?
  let limit ← defaulted? interpreter "max_microsteps" default.limit
    (fun v => do Yaml.natural? (← (← d.scalar? v).resolvable? "int"))
  let deferEvents ← defaulted? interpreter "defer_events" default.deferEvents
    (fun v => do Yaml.flag? (← (← d.scalar? v).resolvable? "bool"))
  let clock ← defaulted? interpreter "clock" default.clock
    (fun v => do ClockKind.ofName? (← (← d.scalar? v).choice?))
  let logFilter ← defaulted? logging "filter" default.logFilter d.text?
  some { limit, deferEvents, clock, logFilter }

/-- The file that spells the settings. -/
def toYaml (s : Settings) : String :=
  "interpreter:\n" ++
    "  max_microsteps: " ++ toString s.limit ++ "\n" ++
    "  defer_events: " ++ (if s.deferEvents then "true" else "false") ++ "\n" ++
    "  clock: " ++ s.clock.name ++ "\n" ++
    "logging:\n" ++
    "  filter: " ++ Yaml.quoted s.logFilter ++ "\n"

end Settings

end Statechart
