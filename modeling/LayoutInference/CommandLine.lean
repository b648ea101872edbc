import LayoutInference.CommandLine.Help
import LayoutInference.Files
import LayoutInference.Report
import LayoutInference.Settings

/-!
# The command line

`CommandLine.run` does what arguments ask for: it loads the settings, reads the script, runs inference
and shows or writes the report. Everything it needs is given and everything it does is in its outcome,
so the program around it only moves texts.
-/

namespace LayoutInference.CommandLine

/-- What a command did: the texts it printed, the files as it left them, and why it failed, if it
did. -/
structure Outcome where
  stdout : String := ""
  stderr : String := ""
  files : Files
  failure : Option Failure := none

/-- Where a command runs: the files it finds, and the bound that the environment sets. -/
structure Surroundings where
  files : Files
  bound : String := ""

/-- The version of the tool. -/
def versionText : String := "cshape version dev\n"

/-- The settings of a run: those of the settings file, overruled by flags. -/
def loadSettings (around : Surroundings) (o : Options) : Except Fault Settings := do
  let path := if o.config = "" then settingsFile else o.config
  let content : Except Fault (Option String) :=
    match around.files.read path with
    | .ok text => .ok (some text)
    | .error trouble =>
      if o.config = "" ∧ trouble.reason = .missing then .ok none else .error trouble.fault
  let s ← Settings.load path content around.bound
  { s with
    format := (o.format.map Glyph.ofText).getD s.format
    verbose := s.verbose || o.verbose
    dump := s.dump || o.dump }.validate

/-- The diagnostics of a run and how it ended. -/
def diagnosticsText (r : Result) : String :=
  String.join (r.diagnostics.map fun d => d.text ++ "\n")
    ++ toString r.iterations ++ " iteration(s), converged: " ++ truthText r.converged ++ "\n"

/-- A failure with a note in front of its wording. -/
def noted (note : String) : Failure → Failure
  | .fault cause => .fault (.context note cause)
  | other => other

/-- Show a report or write it to the file that was asked for. -/
def deliver (around : Surroundings) (o : Options) (stderr report : String) : Outcome :=
  if o.output = "" then { files := around.files, stderr, stdout := report }
  else
    match around.files.write o.output report with
    | .ok files => { files, stderr, stdout := "Inferred shapes saved to " ++ o.output ++ "\n" }
    | .error trouble =>
      { files := around.files
        stderr
        failure := some (.fault (.context "failed to write output file" trouble.fault)) }

/-- Run inference over a file. -/
def runAnalysis (parser : Parser) (around : Surroundings) (o : Options) (input : String) : Outcome :=
  let failed (stderr : String) (note : String) (cause : Failure) : Outcome :=
    { files := around.files, stderr, failure := some (noted note cause) }
  match loadSettings around o with
  | .error cause => failed "" "loading config" (.fault cause)
  | .ok s =>
    match around.files.read input with
    | .error trouble => failed "" "failed to read input file" (.fault trouble.fault)
    | .ok text =>
      match Result.ofText parser input text s.maxIterations with
      | .error cause => failed "" "inference failed" cause
      | .ok result =>
        let stderr := if s.verbose then diagnosticsText result else ""
        match if o.strict then result.refusal? else none with
        | some refusal => failed stderr "inference failed" (.fault refusal)
        | none =>
          match result.describe (Glyph.shownText s.format) with
          | .error cause => failed stderr "rendering report" (.fault cause)
          | .ok report => deliver around o stderr report

/-- Do what a request asks for. An interactive session is left to the caller. -/
def runRequest (parser : Parser) (around : Surroundings) : Request → Outcome
  | .analyse o input => runAnalysis parser around o input
  | .version => { files := around.files, stdout := versionText }
  | .help command => { files := around.files, stdout := command.helpText }
  | .session => { files := around.files }

/-- Do what arguments ask for. -/
def run (parser : Parser) (around : Surroundings) (arguments : List String) : Outcome :=
  match Request.ofArguments arguments with
  | .ok request => runRequest parser around request
  | .error cause => { files := around.files, failure := some (.fault cause) }

end LayoutInference.CommandLine
