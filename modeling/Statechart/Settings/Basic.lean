import Statechart.Decimal.Natural
import Statechart.Json.Record
import Statechart.Machine

/-!
# Settings

The settings of an interpreter: the bound of the microsteps, whether events that come
before the start are kept, the clock, and a filter for log messages.  They are read from
JSON and overridden by variables of the environment.
-/

namespace Statechart

/-- Which clock times delayed sends. -/
inductive ClockKind where
  | realTime
  | simulated
  deriving DecidableEq, Repr

/-- The settings of an interpreter. -/
structure Settings where
  limit : Nat := Machine.defaultLimit
  deferEvents : Bool := true
  clock : ClockKind := .realTime
  logFilter : String := "harel=info,harel_core=info,harel_runtime=info"
  deriving DecidableEq, Repr

/-- The name of a clock. -/
def ClockKind.name : ClockKind → String
  | .realTime => "tokio"
  | .simulated => "simulated"

/-- The clock of the given name. -/
def ClockKind.ofName? (name : String) : Option ClockKind :=
  [ClockKind.realTime, ClockKind.simulated].find? (fun k => k.name == name)

/-- The clock that a value names, as a string or as the single key over null. -/
def ClockKind.ofJson? : Json → Option ClockKind
  | .str name => ofName? name
  | .obj [(name, .null)] => ofName? name
  | _ => none

namespace Settings

open Json (record? defaulted? flag?)

/-- The written form. -/
def toJson (s : Settings) : Json :=
  .obj
    [("interpreter", .obj [("max_microsteps", .int s.limit),
      ("defer_events", .bool s.deferEvents), ("clock", .str s.clock.name)]),
    ("logging", .obj [("filter", .str s.logFilter)])]

/-- The settings with those of the interpreter that a value spells. -/
def readInterpreter? (s : Settings) (value : Json) : Option Settings := do
  let fields ← record? ["max_microsteps", "defer_events", "clock"] value
  let limit ← defaulted? fields ["max_microsteps"] s.limit Json.natural?
  let deferEvents ← defaulted? fields ["defer_events"] s.deferEvents flag?
  let clock ← defaulted? fields ["clock"] s.clock ClockKind.ofJson?
  some { s with limit, deferEvents, clock }

/-- The settings with those of the log messages that a value spells. -/
def readLogging? (s : Settings) (value : Json) : Option Settings := do
  let fields ← record? ["filter"] value
  let logFilter ← defaulted? fields ["filter"] s.logFilter Json.string?
  some { s with logFilter }

/-- The settings that a value spells; what it leaves out has its default. -/
def ofJson? (value : Json) : Option Settings := do
  let fields ← record? ["interpreter", "logging"] value
  let s ← defaulted? fields ["interpreter"] {} (readInterpreter? {})
  defaulted? fields ["logging"] s (readLogging? s)

/-- The text in lower case, as far as its letters have a lower case within ASCII; the
Kelvin sign is the one other capital that has. -/
def lowered (s : String) : String :=
  String.ofList (s.toList.map (fun c => if c = '\u212A' then 'k' else c.toLower))

/-- The settings with a value overridden by the variable `name` of the environment. -/
def override (env : String → Option String) (name : String)
    (set : Settings → String → Settings) (s : Settings) : Settings :=
  ((env name).map (set s)).getD s

/-- The settings with the overrides of the environment.  A value that does not read leaves
the setting as it is, but events are kept only if the variable says so. -/
def overridden (env : String → Option String) (s : Settings) : Settings :=
  let s := s.override env "HAREL_MAX_MICROSTEPS" (fun s text =>
    { s with limit := (Decimal.natural? (1 <<< 64) text).getD s.limit })
  let s := s.override env "HAREL_DEFER_EVENTS" (fun s text =>
    { s with deferEvents := text == "1" || lowered text == "true" })
  let s := s.override env "HAREL_CLOCK" (fun s text =>
    { s with clock := (ClockKind.ofName? (lowered text)).getD s.clock })
  s.override env "HAREL_LOG" (fun s text =>
    if text = "" then s else { s with logFilter := text })

/-- What can be wrong with settings. -/
inductive Problem where
  | noMicrosteps
  | emptyFilter
  deriving DecidableEq, Repr

/-- The problem in words. -/
def Problem.message : Problem → String
  | .noMicrosteps =>
    "configuration validation failed: interpreter.max_microsteps must be at least 1"
  | .emptyFilter => "configuration validation failed: logging.filter must not be empty"

/-- The first problem of the settings. -/
def problem? (s : Settings) : Option Problem :=
  if s.limit = 0 then some .noMicrosteps
  else if Text.trim s.logFilter.toList = [] then some .emptyFilter
  else none

end Settings

end Statechart
