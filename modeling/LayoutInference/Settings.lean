import LayoutInference.Fault
import LayoutInference.Settings.Document

/-!
# Settings

The settings of a run. They start from defaults, are read over from a YAML mapping, and the bound on
the number of passes may be given by a variable of the environment. `Settings.validate` refuses values
that a run cannot use.
-/

namespace LayoutInference

/-- The file that settings are read from unless another is named. -/
def settingsFile : String := ".cshape.yaml"

/-- The variable of the environment that bounds the number of passes. -/
def boundVariable : String := "CSHAPE_MAX_ITERATIONS"

namespace Settings

/-! ## Loading -/

/-- Read the text of a settings file over settings. -/
def readText (s : Settings) (text : String) : Except Fault Settings :=
  match s.readDocument text with
  | .error trouble => .error (.plain trouble.message)
  | .ok (s, []) => .ok s
  | .ok (_, found) =>
    .error (.plain ("yaml: unmarshal errors:\n  " ++ "\n  ".intercalate (found.map (·.message))))

/-- Read the bound from the environment; an empty value counts as none. -/
def readBound (s : Settings) (value : String) : Except Fault Settings :=
  if value = "" then .ok s
  else
    let refuse (why : String) : Except Fault Settings :=
      .error (.plain (boundVariable ++ ": strconv.Atoi: parsing " ++ quoted value ++ ": " ++ why))
    match signed? (digits? 10) value.toList with
    | none => refuse "invalid syntax"
    | some n =>
      match inWord? n with
      | none => refuse "value out of range"
      | some n => .ok { s with maxIterations := n }

/-- The formats that a report can be asked for in. -/
def formats : List String := ["text", "yaml", "json"]

/-- Refuse settings that a run cannot use. -/
def validate (s : Settings) : Except Fault Settings :=
  if s.maxIterations ≤ 0 then
    .error (.plain ("max_iterations must be positive, got " ++ toString s.maxIterations))
  else if formats.any (Glyph.ofText · = s.format) then .ok s
  else
    .error (.plain ("unknown format " ++ quotedGlyphs s.format ++ ", expected one of ["
      ++ " ".intercalate formats ++ "]"))

/-- The settings of a file, given its name and what reading it gave: its text, or why it cannot be
read, or nothing if it need not exist. -/
def load (path : String) (content : Except Fault (Option String)) (bound : String) :
    Except Fault Settings := do
  let s ← match content with
    | .error cause => throw (.context ("reading config " ++ path) cause)
    | .ok none => pure {}
    | .ok (some text) =>
      (readText {} text).mapError fun cause => Fault.context ("parsing config " ++ path) cause
  let s ← s.readBound bound
  s.validate

end Settings

end LayoutInference
