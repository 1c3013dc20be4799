import Statechart.CommandLine.Execution

/-!
# The program

Reads the files that the arguments name, does what the arguments ask for, and prints the
outcome.
-/

namespace Statechart.CommandLine

/-- The content of a file, if it can be read. -/
def readFile? (path : String) : IO (Option String) := do
  try
    return some (← IO.FS.readFile path)
  catch _ =>
    return none

/-- The definition file of a command. -/
def definitionFile? : Command → Option String
  | .validate path => some path
  | .transition path _ _ => some path
  | .run path _ _ => some path
  | _ => none

/-- The variables that settings depend on. -/
def settingNames : List String :=
  [settingsVariable, "HAREL_MAX_MICROSTEPS", "HAREL_DEFER_EVENTS", "HAREL_CLOCK",
    "HAREL_LOG"]

/-- Does what the arguments ask for, and answers the exit code. -/
def program (args : List String) : IO UInt32 := do
  let found ← settingNames.mapM (fun name => do return (name, ← IO.getEnv name))
  let setting (name : String) : Option String := (found.lookup name).join
  let paths := match arguments? ⟨setting, fun _ => none⟩ args with
    | none => []
    | some a => a.settingsFile.toList ++ (definitionFile? a.command).toList
  let files ← paths.mapM (fun path => do return (path, ← readFile? path))
  let outcome := execute ⟨setting, fun path => (files.lookup path).join⟩ args
  for line in outcome.output do
    IO.println line
  for line in outcome.errors do
    IO.eprintln line
  return outcome.code.toUInt32

end Statechart.CommandLine

/-- The program. -/
def main (args : List String) : IO UInt32 :=
  Statechart.CommandLine.program args
