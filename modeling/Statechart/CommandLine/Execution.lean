import Statechart.Chart.Compile
import Statechart.CommandLine.Help
import Statechart.Session.Operations
import Statechart.Settings.Yaml

/-!
# Execution of commands

`CommandLine.execute` maps the arguments, the environment and the files to the output and
the exit code of the program: 0 for success, 1 for an error and 2 for a wrong use.
-/

namespace Statechart.CommandLine

/-- What the program does. -/
structure Outcome where
  code : Nat
  output : List String := []
  errors : List String := []
  deriving DecidableEq, Repr

/-- What the program finds around it: variables and files. -/
structure Surroundings where
  lookup : String → Option String
  content : String → Option String

/-- The variable that names a settings file. -/
def settingsVariable : String := "HAREL_CONFIG"

/-- The outcome of an error. -/
def failure (reason : String) : Outcome :=
  { code := 1, errors := ["Error: " ++ reason] }

/-- The outcome of a wrong use. -/
def misuse : Outcome :=
  { code := 2, errors := "error: wrong use" :: helpLines none .program }

/-- The settings of the program: those of the settings file, which must be right, or else
the defaults, with the overrides of the environment. -/
def settings (around : Surroundings) (file : Option String) : Except String Settings :=
  match file with
  | none => .ok (({} : Settings).overridden around.lookup)
  | some path =>
    match around.content path with
    | none => .error ("failed to read config file '" ++ path ++ "'")
    | some text =>
      match Settings.ofYaml? text with
      | none => .error ("failed to parse config file '" ++ path ++ "'")
      | some s =>
        let s := s.overridden around.lookup
        match s.problem? with
        | some problem => .error problem.message
        | none => .ok s

/-- The chart in a definition file. -/
def chart (around : Surroundings) (path : String) : Except String Chart :=
  match around.content path with
  | none => .error ("Failed to read " ++ path)
  | some text =>
    match Chart.ofText text with
    | .ok chart => .ok chart
    | .error .unreadable => .error "JSON error"
    | .error (.faulty fault) => .error fault.message

/-- The event that an argument spells: a name, perhaps with data in JSON after an equals
sign. -/
def event (arg : String) : Except String Event :=
  let name := String.ofList (arg.toList.takeWhile (· ≠ '='))
  match arg.toList.dropWhile (· ≠ '=') with
  | [] => .ok (.bare arg)
  | _ :: data =>
    match Json.read? (String.ofList data) with
    | some value => .ok ⟨name, value.merged⟩
    | none => .error ("Invalid data for event " ++ name)

/-- The state value that an argument spells: JSON, or a dotted path. -/
def stateValue (arg : String) : StateValue :=
  ((Json.read? arg).bind StateValue.ofJson?).getD (.ofPath arg)

/-- The line that tells of a valid definition. -/
def summary (c : Chart) : String :=
  c.id ++ " ok: " ++ toString c.nodes.length ++ " nodes, events [" ++
    Text.join ", " c.events ++ "], checksum " ++ c.checksum

/-- The snapshot after one event. -/
def transition (m : Machine) (value : Option String) (event : Event) :
    Except Fault Snapshot :=
  match value with
  | some arg => m.transitionFrom (stateValue arg) event
  | none => do m.transition (← m.initial) event

/-- The bound of the steps of a run. -/
def fuel : Nat := 1 <<< 40

/-- The snapshots that a session has shown, a line each. -/
def shown (trace : List Observation) : List String :=
  trace.filterMap (fun o => match o with
    | .published _ snapshot => some snapshot.toJson.compact
    | _ => none)

/-- The problems and the completion that a session has reported, a line each. -/
def reported (trace : List Observation) : List String :=
  trace.filterMap (fun o => match o with
    | .diagnosed d => some ("[" ++ d.code ++ "] " ++ d.message)
    | .completed event => some ("done: " ++ event.name)
    | _ => none)

/-- The outcome of a run: the machine is started and takes the events in turn, delayed
events have some time, and then it is stopped. -/
def runMachine (m : Machine) (s : Settings) (events : List Event) (waitMillis : Nat) :
    Outcome :=
  let session := ((Session.ofMachine m []).withSettings s).subscribe "output"
  let session := session.starting.run fuel
  match session.takeFault with
  | (some fault, session) =>
    { code := 1, output := shown session.trace,
      errors := reported session.trace ++ ["Error: core error: " ++ fault.message] }
  | (none, session) =>
    let session := events.foldl (fun s e => (s.sending e).run fuel) session
    let session := (session.advancing (waitMillis * 1000)).run fuel
    let session := session.stopping.run fuel
    { code := 0, output := shown session.trace, errors := reported session.trace }

/-- The outcome of a command under given settings. -/
def perform (around : Surroundings) (s : Settings) : Command → Except String Outcome
  | .validate path => do
    let c ← chart around path
    .ok { code := 0, output := [summary c] }
  | .transition path value arg => do
    let c ← chart around path
    let event ← event arg
    match transition ((Machine.ofChart c).withLimit s.limit) value event with
    | .ok snapshot => .ok { code := 0, output := [snapshot.toJson.pretty 0] }
    | .error fault => .error fault.message
  | .run path args waitMillis => do
    let c ← chart around path
    let events ← args.mapM event
    .ok (runMachine (Machine.ofChart c) s events waitMillis)
  | .help topic => .ok { code := 0, output := helpLines (around.lookup settingsVariable) topic }
  | .version => .ok { code := 0, output := [versionText] }

/-- The arguments, with the settings file that the environment names if they name none; a
command that only tells about the program needs none. -/
def arguments? (around : Surroundings) (args : List String) : Option Arguments := do
  let a ← parse none none args
  if a.command.isInformative ∨ a.settingsFile.isSome then some a
  else do
    let settingsFile ← settle none (around.lookup settingsVariable)
    some { a with settingsFile }

/-- The settings for a command; one that only tells about the program needs none. -/
def settingsFor (around : Surroundings) (a : Arguments) : Except String Settings :=
  if a.command.isInformative then .ok {} else settings around a.settingsFile

/-- What the program does with its arguments. -/
def execute (around : Surroundings) (args : List String) : Outcome :=
  match arguments? around args with
  | none => misuse
  | some a =>
    match (settingsFor around a).bind (fun s => perform around s a.command) with
    | .ok outcome => outcome
    | .error reason => failure reason

end Statechart.CommandLine
