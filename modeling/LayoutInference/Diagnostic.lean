import LayoutInference.Apparent
import LayoutInference.Source
import LayoutInference.Text.Quoted

/-!
# Diagnostics

Notes about what inference could not treat precisely. A note never stops a run.
-/

namespace LayoutInference

/-- How much a note matters. -/
inductive Severity where
  | info
  | warning
deriving DecidableEq, Repr

/-- The name of a severity. -/
def Severity.text : Severity → String
  | .info => "info"
  | .warning => "warning"

/-- What a note is about. -/
inductive Notice where
  /-- A construct that was skipped. -/
  | unsupported (what : String)
  /-- An expression, by its source text and apparent type, that has no static layout. -/
  | noStaticLayout (text : List UInt8) (apparent : String)
  /-- A variable with several layouts, each as it is written. -/
  | conflicting (name : String) (layouts : List String)
  /-- A run that was stopped by its bound. -/
  | notConverged (iterations : Nat)
deriving DecidableEq, Repr

namespace Notice

/-- The severity of a notice: what is left out or unfinished is a warning. -/
def severity : Notice → Severity
  | .unsupported _ | .notConverged _ => .warning
  | .noStaticLayout _ _ | .conflicting _ _ => .info

/-- The wording of a notice. -/
def message : Notice → String
  | .unsupported what => "unsupported construct " ++ what ++ " skipped"
  | .noStaticLayout text apparent =>
    "no static type for " ++ quotedBytes text ++ " (" ++ apparent ++ "), using struct js_var"
  | .conflicting name layouts =>
    name ++ " has conflicting types " ++ ", ".intercalate layouts ++ ", using struct js_var"
  | .notConverged iterations =>
    "inference did not converge after " ++ toString iterations ++ " iterations"

end Notice

/-- A notice with the node it is about, if any, and its place. -/
structure Diagnostic where
  notice : Notice
  node : Option NodeId
  position : Position
deriving DecidableEq, Repr

namespace Diagnostic

/-- The severity of a diagnostic. -/
def severity (d : Diagnostic) : Severity := d.notice.severity

/-- The wording of a diagnostic. -/
def message (d : Diagnostic) : String := d.notice.message

/-- A diagnostic on one line, with its place if it has one. -/
def text (d : Diagnostic) : String :=
  let note := d.severity.text ++ ": " ++ d.message
  if d.position.line > 0 then
    d.position.file ++ ":" ++ toString d.position.line ++ ":" ++ toString d.position.column ++ ": "
      ++ note
  else note

end Diagnostic

end LayoutInference
