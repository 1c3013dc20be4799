import Statechart.CommandLine.Arguments

/-!
# Help texts

What the program says about itself.
-/

namespace Statechart.CommandLine

/-- The name and the version of the program. -/
def versionText : String := "harel 0.1.0"

/-- A line and the words behind it, put into lines of at most `width` characters as far as
no word is longer. -/
def wrapped (width : Nat) (line : String) : List String → List String
  | [] => [line]
  | word :: rest =>
    if width < line.length + 1 + word.length then line :: wrapped width word rest
    else wrapped width (line ++ " " ++ word) rest

/-- The lines on an option: its name, and to the right of it a text, in a hundred columns. -/
def optionLines (name text : String) : List String :=
  let column := String.ofList (List.replicate name.length ' ')
  match Text.segments ' ' text with
  | [] => [name]
  | word :: words =>
    match wrapped (100 - name.length) word words with
    | [] => [name]
    | first :: others => (name ++ first) :: others.map (column ++ ·)

/-- The lines of a help text. -/
def helpLines (settingsFile : Option String) : HelpTopic → List String
  | .program =>
    ["Hierarchical statechart interpreter",
      "",
      "Usage: harel [OPTIONS] <COMMAND>",
      "",
      "Commands:",
      "  validate    Parse and validate a machine definition",
      "  transition  Resolve one event from a state value without running any actions",
      "  run         Start an interpreter and feed it events, printing every snapshot",
      "  help        Print this message or the help of the given subcommand(s)",
      "",
      "Options:"] ++
    optionLines "  -c, --config <CONFIG>  "
      ("Configuration file (YAML) [env: HAREL_CONFIG=" ++ settingsFile.getD "" ++ "]") ++
    ["  -h, --help             Print help",
      "  -V, --version          Print version"]
  | .validate =>
    ["Parse and validate a machine definition",
      "",
      "Usage: harel validate <DEFINITION>",
      "",
      "Arguments:",
      "  <DEFINITION>  Definition JSON file",
      "",
      "Options:",
      "  -h, --help  Print help"]
  | .transition =>
    ["Resolve one event from a state value without running any actions",
      "",
      "Usage: harel transition [OPTIONS] <DEFINITION> <EVENT>",
      "",
      "Arguments:",
      "  <DEFINITION>  Definition JSON file",
      "  <EVENT>       Event name, optionally with data as NAME=JSON",
      "",
      "Options:",
      "  -v, --value <VALUE>  Source state value (JSON, or a bare state key)",
      "  -h, --help           Print help"]
  | .run =>
    ["Start an interpreter and feed it events, printing every snapshot",
      "",
      "Usage: harel run [OPTIONS] <DEFINITION> [EVENTS]...",
      "",
      "Arguments:",
      "  <DEFINITION>  Definition JSON file",
      "  [EVENTS]...   Events to send, in order (NAME or NAME=JSON)",
      "",
      "Options:",
      "  -w, --wait-ms <WAIT_MS>  Time to let delayed events fire after the last event [default: 0]",
      "  -h, --help               Print help"]
  | .help =>
    ["Print this message or the help of the given subcommand(s)",
      "",
      "Usage: harel help [COMMAND]...",
      "",
      "Arguments:",
      "  [COMMAND]...  Print help for the subcommand(s)"]

end Statechart.CommandLine
