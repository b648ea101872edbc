import LayoutInference.Analysis
import LayoutInference.Layout.Rendering

/-!
# The content of reports

A report is the outcome of a run in plain texts and numbers, with every layout in its written form and
every record under its final name. `Report.ofResult` makes one.
-/

namespace LayoutInference

namespace Report

/-- A named layout as text. -/
structure Field where
  name : String
  type : String

/-- A record. The list of fields may be missing altogether. -/
structure Record where
  name : String
  fields : Option (List Field)

/-- A function. -/
structure Function where
  name : String
  line : Int
  returned : String
  params : List Field
  callSites : Int

/-- A variable or parameter. -/
structure Variable where
  name : String
  line : Int
  column : Int
  type : String
  declaration : String
  allocate : Bool
  parameter : Bool
  /-- The name of the function that a parameter belongs to, else empty. -/
  function : String
  references : Int

end Report

/-- The outcome of a run. -/
structure Report where
  file : String
  records : List Report.Record
  functions : List Report.Function
  vars : List Report.Variable
  diagnostics : List String
  iterations : Int
  converged : Bool

/-- The name of a function: its own, that of the variable it initialises, or one made from its
line. -/
def Program.functionName (p : Program) (id : NodeId) (name : String) : String :=
  if name ≠ "" then name
  else
    match (p.node? id).bind fun n => p.at? n.parent with
    | some parent =>
      if parent.kind = .variable ∧ parent.name ≠ "" then parent.name
      else "anonymous_" ++ toString (p.position id).line
    | none => "anonymous_" ++ toString (p.position id).line

namespace Report

section Making

variable (r : Result)

/-- A named layout as it is reported. -/
def fieldOf (name : String) (l : Layout) : Except Fault Field := do
  return ⟨name, ← r.state.registry.render l⟩

/-- A record as it is reported. A record without fields has no list of them. -/
def recordOf (record : LayoutInference.Record) : Except Fault Record := do
  let fields ← record.fields.mapM fun f => fieldOf r f.name f.layout
  return ⟨record.displayName, if fields.isEmpty then none else some fields⟩

/-- A function as it is reported. -/
def functionOf (f : Signature) : Except Fault Function := do
  let p := r.subject.program
  return {
    name := p.functionName f.node f.name
    line := (p.position f.node).line
    returned := ← r.state.registry.render f.returned
    params := ← f.params.mapM fun b => fieldOf r b.name b.layout
    callSites := f.calls }

/-- A variable as it is reported. -/
def variableOf (b : Binding) : Except Fault Variable := do
  let p := r.subject.program
  let place := p.position b.decl
  return {
    name := b.name
    line := place.line
    column := place.column
    type := ← r.state.registry.render b.layout
    declaration := ← r.state.registry.declare b.layout b.name
    allocate := b.needsAllocation
    parameter := b.parameter
    function :=
      if b.parameter then ((p.at? b.func).map fun n => p.functionName n.id n.name).getD "" else ""
    references := b.references.length }

/-- The report of a run. -/
def ofResult : Except Fault Report := do
  return {
    file := r.subject.program.source.file
    records := ← r.records.mapM (recordOf r)
    functions := ← r.functions.mapM (functionOf r)
    vars := ← r.bindings.mapM (variableOf r)
    diagnostics := r.diagnostics.map (·.text)
    iterations := r.iterations
    converged := r.converged }

end Making

end Report

end LayoutInference
