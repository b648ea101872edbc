import LayoutInference.Report.Declarations
import LayoutInference.Report.Document
import LayoutInference.Text.Quoted
import LayoutInference.Yaml.Printer

/-!
# Reports

`Report.write` writes a report in one of three formats: C declarations, YAML or JSON. `describe` is the
whole way from source text to a written report.
-/

namespace LayoutInference

/-- Write a report in the format of the given name; no name stands for C declarations. -/
def Report.write (r : Report) (format : String) : Except Fault String :=
  match format with
  | "" | "text" => .ok r.declarations
  | "yaml" => .ok r.document.yaml
  | "json" => .ok r.document.json
  | _ => .error (.plain ("unknown report format " ++ quoted format))

/-- The report of a run, written in a format. -/
def Result.describe (r : Result) (format : String) : Except Fault String := do
  (← Report.ofResult r).write format

/-- Run inference over a text and write the report. A strict run refuses a program with warnings. -/
def describe (parser : Parser) (file text format : String) (maxIterations : Int) (strict : Bool) :
    Except Failure String := do
  let result ← Result.ofText parser file text maxIterations
  match if strict then result.refusal? else none with
  | some refusal => throw (.fault refusal)
  | none => (result.describe format).mapError .fault

end LayoutInference
