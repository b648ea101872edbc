import LayoutInference.Fault
import LayoutInference.Inference

/-!
# Analysing source text

From source text to layouts: a parser, which is given, reads the text as a script, the script becomes
a program, and inference runs over it. `Result.ofText` is the whole way. A strict analysis refuses a
program with warnings, but only after the run, so that its notes can still be shown.
-/

namespace LayoutInference

/-- An error reported by a parser. -/
structure ParseIssue where
  line : Int
  column : Int
  message : String

/-- A parser of scripts. -/
abbrev Parser := String → Except (List ParseIssue) Script

/-- Why an analysis stopped: a fault with a wording, or an assumption of the analysis that the program
does not meet. -/
inductive Failure where
  | fault (fault : Fault)
  /-- A `switch` clause without statements has no end. -/
  | endlessClause
  /-- Two containers of different kinds have the same key. -/
  | clash (clash : Clash)

/-- The wording of a failure. -/
def Failure.message : Failure → String
  | .fault cause => cause.message
  | .endlessClause => "a switch clause without statements has no end"
  | .clash _ => "two containers of different kinds have the same key"

/-- The fault of a text that is no script. -/
def ParseIssue.fault (file : String) (issues : List ParseIssue) : Fault :=
  .several (issues.map fun issue => .syntactic ⟨file, issue.line, issue.column⟩ issue.message)

/-- The fault of a program that was refused for its warnings, if it has any. -/
def Result.refusal? (r : Result) : Option Fault :=
  match r.warnings with
  | [] => none
  | warnings =>
    let fault (d : Diagnostic) : Fault :=
      .semantic ⟨d.position.file, d.position.line, d.position.column⟩ d.message
    some (.several (warnings.map fault))

/-- Read a text as a program. -/
def Program.ofText (parser : Parser) (file text : String) : Except Failure Program :=
  match parser text with
  | .error issues => .error (.fault (ParseIssue.fault file issues))
  | .ok script =>
    match Program.ofScript (Source.ofText file text) script with
    | .error .endlessClause => .error .endlessClause
    | .ok program => .ok program

/-- Run inference over a text. -/
def Result.ofText (parser : Parser) (file text : String) (maxIterations : Int) :
    Except Failure Result := do
  let program ← Program.ofText parser file text
  (infer program maxIterations).mapError .clash

end LayoutInference
