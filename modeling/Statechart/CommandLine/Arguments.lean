import Statechart.Decimal.Natural
import Statechart.Text.Segments

/-!
# Arguments of the command line

The commands of the program and their arguments, read from left to right.  Options and
positional arguments of a command may mix; after `--` everything is positional.  An option
takes its value from what is attached to it or else from the next argument, which must not
look like an option; no option occurs twice, and a path is not empty.  A request for help
or for the version is granted as soon as it is reached, whatever follows it.
-/

namespace Statechart.CommandLine

/-- The texts of help. -/
inductive HelpTopic where
  | program
  | validate
  | transition
  | run
  | help
  deriving DecidableEq, Repr

/-- A command. -/
inductive Command where
  | validate (definition : String)
  | transition (definition : String) (value : Option String) (event : String)
  | run (definition : String) (events : List String) (waitMillis : Nat)
  | help (topic : HelpTopic)
  | version
  deriving DecidableEq, Repr

/-- Whether a command only tells about the program. -/
def Command.isInformative : Command → Bool
  | .help _ => true
  | .version => true
  | _ => false

/-- A command with the settings file that is named before it. -/
structure Arguments where
  settingsFile : Option String := none
  command : Command
  deriving DecidableEq, Repr

/-- An option that takes a value of a certain form. -/
structure OptionName where
  short : Char
  long : String
  admits : String → Bool := fun _ => true

/-- What a command takes: options, and positional arguments, perhaps up to a number.  The
first positional argument is a path. -/
structure Signature where
  options : List OptionName := []
  positionals : Option Nat := none

/-- Options with their values, and positional arguments. -/
structure Parsed where
  options : List (Char × String) := []
  positionals : List String := []
  wantsHelp : Bool := false

/-- Whether an argument looks like an option. -/
def looksLikeOption (arg : String) : Bool :=
  match arg.toList with
  | '-' :: _ :: _ => true
  | _ => false

/-- What an argument is, given the options that a command takes. -/
inductive Shape where
  | positional
  | endOfOptions
  | help
  | version
  | option (name : OptionName) (attached : Option String)
  | unknown

/-- A long option and the value that an equals sign attaches to it. -/
def longShape (names : List OptionName) (body : List Char) : Shape :=
  let name := String.ofList (body.takeWhile (· ≠ '='))
  let attached := match body.dropWhile (· ≠ '=') with
    | [] => none
    | _ :: rest => some (String.ofList rest)
  match names.find? (fun o => o.long == name), attached with
  | some o, _ => .option o attached
  | none, none => if name = "help" then .help else if name = "version" then .version else .unknown
  | none, some _ => .unknown

/-- A short option and the value that is attached to it, perhaps by an equals sign. -/
def shortShape (names : List OptionName) (c : Char) (rest : List Char) : Shape :=
  match names.find? (fun o => o.short == c), rest with
  | some o, [] => .option o none
  | some o, '=' :: rest => .option o (some (String.ofList rest))
  | some o, rest => .option o (some (String.ofList rest))
  | none, _ => if c = 'h' then .help else if c = 'V' then .version else .unknown

/-- What an argument is. -/
def shape (names : List OptionName) (arg : String) : Shape :=
  match arg.toList with
  | ['-', '-'] => .endOfOptions
  | '-' :: '-' :: body => longShape names body
  | '-' :: c :: rest => shortShape names c rest
  | _ => .positional

/-- The parsed arguments with one more option, whose value must be right; none may occur
twice. -/
def Parsed.addOption? (p : Parsed) (name : OptionName) (value : String) : Option Parsed :=
  if p.options.any (fun o => o.1 == name.short) ∨ !name.admits value then none
  else some { p with options := p.options ++ [(name.short, value)] }

/-- The parsed arguments with one more positional argument, if the command takes it. -/
def Parsed.addPositional? (p : Parsed) (takes : Signature) (arg : String) : Option Parsed :=
  if takes.positionals.any (· ≤ p.positionals.length) then none
  else if p.positionals.isEmpty ∧ arg = "" then none
  else some { p with positionals := p.positionals ++ [arg] }

/-- The arguments of a command, parsed. -/
def parseRest (takes : Signature) (p : Parsed) : List String → Option Parsed
  | [] => some p
  | arg :: rest =>
    match shape takes.options arg with
    | .positional => do parseRest takes (← p.addPositional? takes arg) rest
    | .endOfOptions => rest.foldlM (fun p arg => p.addPositional? takes arg) p
    | .help => some { p with wantsHelp := true }
    | .option name (some value) => do parseRest takes (← p.addOption? name value) rest
    | .option name none =>
      match rest with
      | [] => none
      | value :: rest =>
        if looksLikeOption value then none
        else do parseRest takes (← p.addOption? name value) rest
    | .version => none
    | .unknown => none

/-- The number of milliseconds that an argument spells. -/
def millis? (arg : String) : Option Nat :=
  Decimal.natural? (1 <<< 64) arg

/-- What `validate` takes. -/
def validateTakes : Signature := { positionals := some 1 }

/-- What `transition` takes. -/
def transitionTakes : Signature :=
  { options := [{ short := 'v', long := "value" }], positionals := some 2 }

/-- What `run` takes. -/
def runTakes : Signature :=
  { options := [{ short := 'w', long := "wait-ms", admits := fun arg => (millis? arg).isSome }] }

/-- The command of the given name with its arguments. -/
def parseCommand (name : String) (args : List String) : Option Command :=
  match name with
  | "validate" => do
    let p ← parseRest validateTakes {} args
    if p.wantsHelp then some (.help .validate)
    else
      match p.positionals with
      | [definition] => some (.validate definition)
      | _ => none
  | "transition" => do
    let p ← parseRest transitionTakes {} args
    if p.wantsHelp then some (.help .transition)
    else
      match p.positionals with
      | [definition, event] => some (.transition definition (p.options.lookup 'v') event)
      | _ => none
  | "run" => do
    let p ← parseRest runTakes {} args
    if p.wantsHelp then some (.help .run)
    else
      let wait ← millis? ((p.options.lookup 'w').getD "0")
      match p.positionals with
      | definition :: events => some (.run definition events wait)
      | [] => none
  | "help" =>
    match args with
    | [] => some (.help .program)
    | ["validate"] => some (.help .validate)
    | ["transition"] => some (.help .transition)
    | ["run"] => some (.help .run)
    | ["help"] => some (.help .help)
    | _ => none
  | _ => none

/-- The settings file that is named, of a value that is settled already and one that
follows; there may be one at most, and its path is not empty. -/
def settle (settled following : Option String) : Option (Option String) :=
  match settled, following with
  | settled, none => some settled
  | none, some path => if path = "" then none else some (some path)
  | some _, some _ => none

/-- The arguments of the program; the settings file is named before the command.  A path
that stands in an argument of its own right before the command is judged after the
command. -/
def parse (settled following : Option String) : List String → Option Arguments
  | [] => none
  | arg :: rest =>
    match shape [{ short := 'c', long := "config" }] arg with
    | .positional => do
      let command ← parseCommand arg rest
      if command.isInformative then some { command }
      else do
        let settingsFile ← settle settled following
        some { settingsFile, command }
    | .help => do
      discard (settle settled following)
      some { command := .help .program }
    | .version => do
      discard (settle settled following)
      some { command := .version }
    | .option _ (some value) => do
      let settled ← settle (← settle settled following) (some value)
      parse settled none rest
    | .option _ none =>
      match rest with
      | [] => none
      | value :: rest =>
        if looksLikeOption value then none
        else do
          let settled ← settle settled following
          parse settled (some value) rest
    | .endOfOptions => none
    | .unknown => none

end Statechart.CommandLine
