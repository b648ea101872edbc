import LayoutInference.CommandLine
import LayoutInference.Session

/-!
# The program

Reads what a request needs, runs it and prints the outcome. The parser of scripts is a parameter of
the library; this program is built without one, and says so when it meets a script.
-/

namespace LayoutInference.Main

open CommandLine

/-- The parser of a program that is built without one. -/
def noParser : Parser := fun _ => .error [⟨0, 0, "no parser for scripts is built in"⟩]

/-- A file with the directories on the way to it, if it can be read. -/
def found (path : String) : IO Files := do
  try
    let content ← IO.FS.readFile path
    return {
      entries := [(Place.ofPath path, content)]
      directories := ((Place.start path).through (Place.namesOf path)).dropLast }
  catch _ => return {}

/-- Files of both kinds. -/
def together (a b : Files) : Files where
  entries := a.entries ++ b.entries
  directories := a.directories ++ b.directories

/-- Print the outcome of a command. -/
def report (before : Files) (outcome : Outcome) : IO UInt32 := do
  for (path, content) in outcome.files.changedSince before do
    IO.FS.writeFile path content
  IO.print outcome.stdout
  IO.eprint outcome.stderr
  match outcome.failure with
  | none => return 0
  | some failure =>
    IO.eprintln ("Error: " ++ failure.message)
    return 1

/-- Run an analysis over the files it names. -/
def analyse (options : Options) (input bound : String) : IO UInt32 := do
  let settings := if options.config = "" then settingsFile else options.config
  let way := ((Place.start options.output).through (Place.namesOf options.output)).dropLast
  let files := together (← found input) (together (← found settings) { directories := way })
  report files (runRequest noParser ⟨files, bound⟩ (.analyse options input))

/-- Take in lines until one ends the session or the input is over. -/
partial def converse (stdin : IO.FS.Stream) (s : Session) : IO UInt32 := do
  IO.print (if s.lines.isEmpty then "js> " else "... ")
  let line ← stdin.getLine
  if line.isEmpty then
    IO.println ""
    return 0
  let line := if line.endsWith "\n" then (line.dropEnd 1).toString else line
  match s.handle noParser line with
  | .error failure =>
    IO.eprintln ("Error: " ++ failure.message)
    return 1
  | .ok (reply, s) =>
    IO.print reply.out
    IO.eprint reply.err
    if reply.more then converse stdin s else return 0

/-- Start an interactive session with the settings of the working directory. -/
def session (bound : String) : IO UInt32 := do
  let files ← found settingsFile
  match loadSettings ⟨files, bound⟩ {} with
  | .error fault =>
    IO.eprintln ("Error: loading config: " ++ fault.message)
    return 1
  | .ok settings =>
    IO.println "cshape dev. Empty line infers, :quit exits."
    converse (← IO.getStdin) { maxIterations := settings.maxIterations }

end LayoutInference.Main

open LayoutInference CommandLine in
/-- Run the command line. -/
def main (arguments : List String) : IO UInt32 := do
  let bound := (← IO.getEnv boundVariable).getD ""
  match Request.ofArguments arguments with
  | .ok (.analyse options input) => Main.analyse options input bound
  | .ok .session => Main.session bound
  | .ok request => Main.report {} (runRequest Main.noParser ⟨{}, bound⟩ request)
  | .error fault => Main.report {} { files := {}, failure := some (.fault fault) }
