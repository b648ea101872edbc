import LayoutInference.Document
import LayoutInference.Report.Content

/-!
# Reports as documents

The fields of a report in the order in which YAML and JSON show them. Lists that are empty are left
out, except the fields of a record.
-/

namespace LayoutInference.Report

/-- A list of documents under a name, left out if it is empty. -/
def optionalList {α : Type} (name : String) (document : α → Document) (items : List α) :
    List (String × Document) :=
  if items.isEmpty then [] else [(name, .list (items.map document))]

/-- A field as a document. -/
def Field.document (f : Field) : Document := .fields [("name", .text f.name), ("type", .text f.type)]

/-- A record as a document. -/
def Record.document (r : Record) : Document :=
  .fields [("name", .text r.name),
    ("fields", match r.fields with
      | none => .noList
      | some fields => .list (fields.map Field.document))]

/-- A function as a document. -/
def Function.document (f : Function) : Document :=
  .fields ([("name", .text f.name), ("line", .number f.line), ("return", .text f.returned)]
    ++ optionalList "params" Field.document f.params ++ [("call_sites", .number f.callSites)])

/-- A variable as a document. -/
def Variable.document (v : Variable) : Document :=
  .fields ([("name", .text v.name), ("line", .number v.line), ("column", .number v.column),
      ("type", .text v.type), ("declaration", .text v.declaration), ("allocate", .truth v.allocate)]
    ++ (if v.parameter then [("parameter", .truth true)] else [])
    ++ (if v.function = "" then [] else [("function", .text v.function)])
    ++ [("references", .number v.references)])

/-- The report as a document. -/
def document (r : Report) : Document :=
  .fields ([("file", .text r.file)]
    ++ optionalList "records" Record.document r.records
    ++ optionalList "functions" Function.document r.functions
    ++ optionalList "variables" Variable.document r.vars
    ++ optionalList "diagnostics" Document.text r.diagnostics
    ++ [("iterations", .number r.iterations), ("converged", .truth r.converged)])

end LayoutInference.Report
