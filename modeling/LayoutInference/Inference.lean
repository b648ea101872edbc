import LayoutInference.Inference.Resolution
import LayoutInference.Layout.FinalName

/-!
# Inference

`infer` runs a whole inference: evidence is collected and resolved, every variable and every function
that is called or returns gets its layout, and the records these are made of get their final names.
-/

namespace LayoutInference

/-- The number of passes a run is given unless told otherwise. -/
def defaultMaxIterations : Nat := 64

/-- The layout of one variable or parameter. -/
structure Binding where
  decl : NodeId
  name : String
  layout : Layout
  needsAllocation : Bool
  references : List NodeId
  /-- The function whose parameter this is. -/
  func : Option NodeId := none
  parameter : Bool := false
  ordinal : Nat := 0
deriving DecidableEq, Repr

/-- The layouts of a function that is called or returns. -/
structure Signature where
  node : NodeId
  name : String
  params : List Binding
  returned : Layout
  calls : Nat
deriving DecidableEq, Repr

/-- The outcome of an inference run. `records` are those with fields that the layouts are made of, in
the order of registration. -/
structure Result where
  subject : Subject
  state : State
  bindings : List Binding
  functions : List Signature
  records : List Record
  diagnostics : List Diagnostic
  iterations : Nat
  converged : Bool

/-- The binding of a variable. -/
def Variable.binding (p : Program) (v : Variable) : Binding where
  decl := v.decl
  name := v.name
  layout := if v.winner = .missing then .pointer else v.winner
  needsAllocation := v.alloc
  references := p.references v.decl
  func := if v.parameter then v.func else none
  parameter := v.parameter
  ordinal := if v.parameter then v.ordinal else 0

/-- The layout shown for what a function returns. -/
def Routine.shownReturn (r : Routine) : Layout :=
  if r.returned ≠ .missing then r.returned
  else if r.ret ≠ .missing then r.ret
  else .pointer

/-- The binding of the declaration that a node belongs to. -/
def bindingOf? (p : Program) (bindings : List Binding) (id : NodeId) : Option Binding := do
  let decl ← p.declaration id
  bindings.find? (·.decl = decl)

/-- The signature of a function. -/
def Routine.signature (p : Program) (bindings : List Binding) (r : Routine) : Signature where
  node := r.node
  name := r.name
  params := r.params.filterMap (bindingOf? p bindings)
  returned := r.shownReturn
  calls := r.calls

/-- The note about a variable with several layouts. -/
def Variable.conflictNote (p : Program) (registry : Registry) (v : Variable) : Option Diagnostic :=
  if v.conflicts.isEmpty then none
  else some {
    notice := .conflicting v.name (v.conflicts.map registry.text)
    node := some v.decl
    position := p.position v.decl }

namespace Result

/-- The result of a finished run. -/
def ofOutcome (s : Subject) (outcome : Subject.Outcome) : Result :=
  let st := outcome.state
  let bindings := st.vars.map (·.binding s.program)
  let notes := st.vars.filterMap (·.conflictNote s.program st.registry)
  let shown := st.routines.filter fun r => r.calls ≠ 0 || r.hasReturn
  let functions := shown.map (·.signature s.program bindings)
  let roots := bindings.map (·.layout) ++ functions.map (·.returned)
  let (ids, registry) := st.registry.finalize roots
  let diagnostics := st.diagnostics ++ notes
  { subject := s
    state := { st with registry, diagnostics }
    bindings
    functions
    records := ids.filterMap registry.record?
    diagnostics
    iterations := outcome.iterations
    converged := outcome.converged }

/-- The binding of the declaration that a node belongs to. -/
def binding? (r : Result) (id : NodeId) : Option Binding :=
  bindingOf? r.subject.program r.bindings id

/-- The first binding with a name. -/
def lookup? (r : Result) (name : String) : Option Binding := r.bindings.find? (·.name = name)

/-- The first function with a name. -/
def function? (r : Result) (name : String) : Option Signature := r.functions.find? (·.name = name)

/-- The layout of any node by the resolved evidence; `missing` if none is known. -/
def layoutOf (r : Result) (id : NodeId) : StateM Store Layout :=
  (r.state.view r.subject).layoutOf id

/-- The warnings of a run. -/
def warnings (r : Result) : List Diagnostic := r.diagnostics.filter (·.severity = .warning)

end Result

/-- Run inference over a program. A bound that is not positive stands for the default one. -/
def runInference (p : Program) (maxIterations : Int) : Result :=
  let s := Subject.of p
  let bound := if maxIterations ≤ 0 then defaultMaxIterations else maxIterations.toNat
  Result.ofOutcome s (s.resolve bound)

/-- Run inference over a program; fails if two containers clashed. -/
def infer (p : Program) (maxIterations : Int) : Except Clash Result :=
  let result := runInference p maxIterations
  match result.state.registry.clash with
  | some clash => .error clash
  | none => .ok result

end LayoutInference
