/-!
# Faults

What can go wrong before a result exists: errors found by the parser, warnings that a strict run
refuses, broken invariants, and faults of the surroundings. A fault may collect others, or add a note
in front of its cause.

* `Fault.message` is the wording.
* `Fault.ownKind?` is the kind a fault has by itself, `Fault.kind` the kind it is reported under.
* `Fault.firstSyntax?` and `Fault.firstSemantic?` look for a cause inside a fault.
-/

namespace LayoutInference

/-- A place in a file, as faults name it. -/
structure Location where
  file : String := ""
  line : Int := 0
  column : Int := 0
deriving DecidableEq, Repr

/-- The written form of a location, ending in a space. -/
def Location.text (l : Location) : String :=
  let place := toString l.line ++ ":" ++ toString l.column ++ " "
  if l.file = "" then "line " ++ place else l.file ++ ":" ++ place

/-- Faults. `tagged` is a fault with a kind of its own, `plain` one without a kind. -/
inductive Fault where
  | syntactic (location : Location) (message : String)
  | semantic (location : Location) (message : String)
  | internal (message : String)
  | tagged (kind : String) (message : String)
  | several (faults : List Fault)
  | context (note : String) (cause : Fault)
  | plain (message : String)

namespace Fault

mutual

/-- The wording of a fault. A semantic fault names its place only if it has one. -/
def message : Fault → String
  | .syntactic location text => "[SyntaxError] " ++ location.text ++ text
  | .semantic location text =>
    "[SemanticError] " ++ (if location.line > 0 then location.text else "") ++ text
  | .internal text => "[InternalError] " ++ text
  | .tagged kind text => "[" ++ kind ++ "] " ++ text
  | .several faults => toString faults.length ++ " error(s) occurred:\n" ++ listed faults
  | .context note cause => note ++ ": " ++ cause.message
  | .plain text => text

/-- Faults one to a line. -/
def listed : List Fault → String
  | [] => ""
  | fault :: faults => "- " ++ fault.message ++ "\n" ++ listed faults

end

/-- The kind that a fault has by itself. A collection has the kind of its first fault; a note and a
plain fault have none. -/
def ownKind? : Fault → Option String
  | .syntactic _ _ => some "SyntaxError"
  | .semantic _ _ => some "SemanticError"
  | .internal _ => some "InternalError"
  | .tagged kind _ => some kind
  | .several [] => some "MultiError"
  | .several (fault :: _) => some (fault.ownKind?.getD "MultiError")
  | .context _ _ => none
  | .plain _ => none

/-- The kind that a fault is reported under: that of the first cause that has one. -/
def kind : Fault → String
  | .context _ cause => cause.kind
  | fault => fault.ownKind?.getD "error"

mutual

/-- The message of the first syntactic fault inside a fault, depth first. -/
def firstSyntax? : Fault → Option String
  | .syntactic _ text => some text
  | .several faults => firstSyntaxOf? faults
  | .context _ cause => cause.firstSyntax?
  | _ => none

/-- The message of the first syntactic fault of a list. -/
def firstSyntaxOf? : List Fault → Option String
  | [] => none
  | fault :: faults => fault.firstSyntax? <|> firstSyntaxOf? faults

end

mutual

/-- The message of the first semantic fault inside a fault, depth first. -/
def firstSemantic? : Fault → Option String
  | .semantic _ text => some text
  | .several faults => firstSemanticOf? faults
  | .context _ cause => cause.firstSemantic?
  | _ => none

/-- The message of the first semantic fault of a list. -/
def firstSemanticOf? : List Fault → Option String
  | [] => none
  | fault :: faults => fault.firstSemantic? <|> firstSemanticOf? faults

end

end Fault

end LayoutInference
