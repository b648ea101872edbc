import LayoutInference.CommandLine.Arguments

/-!
# Help

What the tool says about itself: for each command what it is for, how it is called, the commands below
it and its flags. Names are padded so that descriptions stand in one column.
-/

namespace LayoutInference.CommandLine

/-- Lines as one text, each of them ended. -/
def ofLines (lines : List String) : String := String.join (lines.map (· ++ "\n"))

/-- A text with blanks after it, up to a width. -/
def padded (width : Nat) (text : String) : String :=
  text ++ String.ofList (List.replicate (width - text.length) ' ')

namespace Flag

/-- What a flag is for. -/
def description (command : Command) : Flag → String
  | .input => "Path to the input .js file"
  | .output => "Path to the output file"
  | .format => "Report format: text, yaml or json (default \"text\")"
  | .config => "Path to a YAML config file"
  | .verbose => "Print diagnostics to stderr"
  | .dump => "Dump the raw report to stderr"
  | .strict => "Treat inference warnings as errors"
  | .help => "help for " ++ command.name

/-- A flag as help shows it: its letter, its name and the kind of its value. -/
def shown (f : Flag) : String :=
  (match f.letter? with
    | some letter => "  -" ++ letter.toString ++ ", --"
    | none => "      --")
    ++ f.name ++ (if f.isSwitch then "" else " string")

end Flag

namespace Command

/-- What a command is for, in a line. -/
def summary : Command → String
  | .root => "Static shape inference for JavaScript"
  | .infer => "Infer static shapes of a JavaScript file"
  | .repl => "Interactive shape inference"
  | .version => "Print the version of cshape"
  | .help => "Help about any command"
  | .completion => "Generate the autocompletion script for the specified shell"

/-- What a command is for. -/
def purpose : Command → List String
  | .root =>
    ["cshape infers fixed-layout static types for the variables, parameters",
      "and return values of a JavaScript program: primitives, fixed and dynamic",
      "arrays, dictionaries and deduplicated records.",
      "",
      "Usage:",
      "  cshape [file.js]                  Infer a file (shorthand)",
      "  cshape -i file.js -o out.h        Infer with explicit input/output",
      "  cshape infer [file.js] -f yaml    Infer explicitly",
      "  cshape repl                       Interactive session",
      "  cshape version                    Print version"]
  | .infer =>
    ["Infer static shapes of a JavaScript file and print them as C-style",
      "declarations, YAML or JSON.",
      "",
      "Settings are read from --config, else .cshape.yaml in the working directory.",
      "CSHAPE_MAX_ITERATIONS overrides the iteration bound.",
      "",
      "Examples:",
      "  cshape infer main.js                  # Declarations to stdout",
      "  cshape infer -i main.js -o main.h     # Declarations to a file",
      "  cshape infer main.js -f json          # JSON report",
      "  cshape infer main.js --strict         # Fail on unsupported constructs",
      "  cshape -i main.js -f yaml             # Shorthand (same as infer)"]
  | .repl =>
    ["Read JavaScript line by line. An empty line runs inference over",
      "everything entered since the last :reset and prints the declarations.",
      "",
      "Commands:",
      "  :reset   forget the buffered program",
      "  :show    print the buffered program",
      "  :quit    exit"]
  | .version => ["Print the version information for the cshape inference tool."]
  | .help =>
    ["Help provides help for any command in the application.",
      "Simply type cshape help [path to command] for full details."]
  | .completion =>
    ["Generate the autocompletion script for cshape for the specified shell.",
      "See each sub-command's help for details on how to use the generated script."]

/-- The names by which a command is called. -/
def path : Command → String
  | .root => "cshape"
  | command => "cshape " ++ command.name

/-- How a command is called, if it does something by itself. -/
def call? : Command → Option String
  | .root => some "cshape [file.js] [flags]"
  | .infer => some "cshape infer [file.js] [flags]"
  | .repl => some "cshape repl [flags]"
  | .version => some "cshape version [flags]"
  | .help => some "cshape help [command] [flags]"
  | .completion => none

/-- The names of the commands below a command with their summaries. -/
def below : Command → List (String × String)
  | .root => [Command.completion, .help, .infer, .repl, .version].map fun c => (c.name, c.summary)
  | .completion => ["bash", "fish", "powershell", "zsh"].map fun shell =>
    (shell, "Generate the autocompletion script for " ++ shell)
  | _ => []

/-- The lines about the flags of a command, by name. -/
def flagLines (command : Command) : List String :=
  let flags := command.flags.mergeSort fun a b => a.name ≤ b.name
  let width := (flags.map fun f => f.shown.length).foldl max 0
  flags.map fun f => padded width f.shown ++ "   " ++ f.description command

/-- How a command is called, in lines. -/
def usageLines (command : Command) : List String :=
  let commands := command.below
  ["Usage:"]
    ++ command.call?.toList.map ("  " ++ ·)
    ++ (if commands.isEmpty then [] else ["  " ++ command.path ++ " [command]"])
    ++ (if commands.isEmpty then []
      else ["", "Available Commands:"]
        ++ commands.map fun (name, summary) => "  " ++ padded 11 name ++ " " ++ summary)
    ++ ["", "Flags:"] ++ command.flagLines
    ++ (if commands.isEmpty then []
      else ["", "Use \"" ++ command.path ++ " [command] --help\" for more information about a command."])

/-- All that is said about a command. -/
def helpText (command : Command) : String :=
  ofLines (command.purpose ++ [""] ++ command.usageLines)

end Command

end LayoutInference.CommandLine
