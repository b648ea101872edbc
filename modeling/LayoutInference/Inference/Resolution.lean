import LayoutInference.Inference.Collection

/-!
# Resolving evidence

A pass picks a winner for every variable from its candidates, then keeps the promises whose nodes have
a layout by now, then settles what functions take and return and hands the argument layouts on to the
parameters. Passes are repeated until one changes nothing. When nothing else changes, properties of
returned records that never received a layout are given up, so that callers waiting for the record can
go on.
-/

namespace LayoutInference

/-! ## Winners -/

namespace Variable

/-- Keep a candidate if it counts: one that says something, and for a dictionary no record. An array
of fixed length that grows counts as a growing one. -/
def keepCandidate (v : Variable) (kept : List Layout × Registry) (c : Layout) :
    List Layout × Registry :=
  if c.isFallback || (v.dictionary && c.isRecord) then kept
  else match v.growing, c with
    | true, .fixed elem _ =>
      let (array, registry) := kept.2.dynamicArray elem
      (appendDistinct kept.1 array, registry)
    | _, _ => (appendDistinct kept.1 c, kept.2)

/-- The candidates that count, each once. -/
def survivors (v : Variable) (registry : Registry) : List Layout × Registry :=
  v.candidates.foldl v.keepCandidate ([], registry)

/-- The record with the properties added to the variable. -/
def extendRecord (v : Variable) (id : RecordId) (registry : Registry) : RecordId × Registry :=
  let known := v.added.filter fun a => !a.self && a.layout ≠ .missing
  let hint := if registry.hint id = "" then v.name else registry.hint id
  registry.extend id hint (known.map fun a => ⟨a.name, a.layout⟩)
    ((v.added.filter (·.self)).map (·.name))

/-- Pick the winner: the only candidate that counts, the opaque pointer if there is none, and the
universal value if there are several. Also tells whether the winner changed. -/
def collapse (v : Variable) (registry : Registry) : (Variable × Bool) × Registry :=
  let decided (winner : Layout) (alloc : Bool) (conflicts : List Layout) : Variable × Bool :=
    ({ v with winner, alloc, conflicts }, !v.winner.same winner)
  match v.survivors registry with
  | ([], registry) => (decided .pointer false [], registry)
  | ([.record id], registry) =>
    let (extended, registry) := v.extendRecord id registry
    (decided (.record extended) v.objectLiteral [], registry)
  | ([winner], registry) => (decided winner winner.requiresAllocation [], registry)
  | (conflicts, registry) => (decided .universal true conflicts, registry)

/-- Pick the winners of a list of variables. Also tells whether one of them changed. -/
def collapseAll (registry : Registry) : List Variable → (List Variable × Bool) × Registry
  | [] => (([], false), registry)
  | v :: vs =>
    let ((v, changed), registry) := v.collapse registry
    let ((vs, changedLater), registry) := collapseAll registry vs
    ((v :: vs, changed || changedLater), registry)

/-! ## Promises of variables -/

/-- The layout of what a walk over a value meets. -/
def walkedElement (l : Layout) : Layout :=
  if l = .string then .string else if l.isArray then l.elem else .missing

/-- Use the layout of a promise's node. Also tells whether the promise is kept by that. -/
def apply (v : Variable) (p : Promise) (l : Layout) (registry : Registry) :
    (Variable × Bool) × Registry :=
  match p.use with
  | .same =>
    if p.property ≠ "" then ((v.write p.property l, true), registry)
    else ((v.addCandidate l, true), registry)
  | .elementOf =>
    if (walkedElement l).isFallback then ((v, false), registry)
    else ((v.addCandidate (walkedElement l), true), registry)
  | .arrayOf =>
    if p.property ≠ "" then
      let (array, registry) := registry.dynamicArray l
      ((v.write p.property array, true), registry)
    else
      let (v, registry) := v.addPushed l registry
      ((v, true), registry)
  | .dictOf =>
    let (dict, registry) := registry.dictionary l
    ((v.addCandidate dict, true), registry)
  | .indexed => v.refineElements l registry

/-- Keep what can be kept of a list of promises. The answer has the variable, the promises, and
whether any was kept. -/
def dischargePromises (view : View) (v : Variable) :
    List Promise → StateM Store (Variable × List Promise × Bool)
  | [] => pure (v, [], false)
  | p :: ps => do
    let l ← if p.resolved then pure .missing else view.layoutOf p.node
    if l = .missing then
      let (v, ps, progressed) ← dischargePromises view v ps
      return (v, p :: ps, progressed)
    else
      let (v, applied) ← Store.withRegistry (v.apply p l)
      let (v, ps, progressed) ← dischargePromises view v ps
      return (v, { p with resolved := applied } :: ps, applied || progressed)

/-- Keep what can be kept of the promises of a variable. Also tells whether any was. -/
def discharge (view : View) (v : Variable) : StateM Store (Variable × Bool) := do
  let (v, promises, progressed) ← v.dischargePromises view v.promises
  return ({ v with promises }, progressed)

/-- Keep what can be kept of the promises of a list of variables. -/
def dischargeAll (view : View) : List Variable → StateM Store (List Variable × Bool)
  | [] => pure ([], false)
  | v :: vs => do
    let (v, progressed) ← v.discharge view
    let (vs, progressedLater) ← dischargeAll view vs
    return (v :: vs, progressed || progressedLater)

end Variable

/-! ## Functions -/

/-- The view in which the evidence about one function is replaced. -/
def View.withRoutine (view : View) (r : Routine) : View :=
  { view with routines := view.routines.map fun other => if other.node = r.node then r else other }

namespace Slot

/-- Settle the promises of a slot; the first layout that arrives is kept. -/
def discharge (view : View) (layout : Layout) :
    List Promise → StateM Store (Slot × Bool)
  | [] => pure ({ layout }, false)
  | p :: ps => do
    let l ← if p.resolved then pure .missing else view.layoutOf p.node
    if l = .missing then
      let (slot, progressed) ← discharge view layout ps
      return ({ slot with promises := p :: slot.promises }, progressed)
    else
      let (slot, _) ← discharge view (if layout = .missing then l else layout) ps
      return ({ slot with promises := { p with resolved := true } :: slot.promises }, true)

/-- Settle the promises of a list of slots. -/
def dischargeAll (view : View) : List Slot → StateM Store (List Slot × Bool)
  | [] => pure ([], false)
  | slot :: slots => do
    let (slot, progressed) ← discharge view slot.layout slot.promises
    let (slots, progressedLater) ← dischargeAll view slots
    return (slot :: slots, progressed || progressedLater)

end Slot

namespace Routine

/-- Give the returned record a property. -/
def shape (r : Routine) (property : String) (l : Layout) : StateM Store Routine :=
  match r.ret with
  | .record id => do
    let out ← Store.withRegistry (·.extend id "" [⟨property, l⟩] [])
    return { r with ret := .record out }
  | _ => pure r

/-- Settle properties of the returned record, those of `done` being behind. -/
def dischargeProps (view : View) (r : Routine) (done : List Promise) :
    List Promise → StateM Store (Routine × Bool)
  | [] => pure ({ r with retProps := done }, false)
  | p :: ps => do
    let l ← if p.resolved then pure .missing
      else (view.withRoutine { r with retProps := done ++ p :: ps }).layoutOf p.node
    if l = .missing then dischargeProps view r (done ++ [p]) ps
    else
      let r ← r.shape p.property l
      let (r, _) ← dischargeProps view r (done ++ [{ p with resolved := true }]) ps
      return (r, true)

/-- Settle promises about the returned value; the first layout that arrives is kept. -/
def dischargeReturns (view : View) (r : Routine) (done : List Promise) :
    List Promise → StateM Store (Routine × Bool)
  | [] => pure ({ r with retPromises := done }, false)
  | p :: ps => do
    let l ← if p.resolved then pure .missing else (view.withRoutine r).layoutOf p.node
    if l = .missing then dischargeReturns view r (done ++ [p]) ps
    else
      let r := if r.ret = .missing then { r with ret := l } else r
      let (r, _) ← dischargeReturns view r (done ++ [{ p with resolved := true }]) ps
      return (r, true)

/-- Settle what a function takes and returns. Also tells whether any promise was settled. -/
def discharge (view : View) (r : Routine) : StateM Store (Routine × Bool) := do
  let (args, settledArgs) ← Slot.dischargeAll view r.args
  let (r, settledProps) ← { r with args }.dischargeProps view [] r.retProps
  let (r, settledReturns) ← r.dischargeReturns view [] r.retPromises
  return (r, settledArgs || settledProps || settledReturns)

/-- Hand an argument layout on to a parameter. Also tells whether it is new there. -/
def handOver (p : Program) (param : NodeId) (slot : Slot) (vars : List Variable) :
    List Variable × Bool :=
  match p.declaration param with
  | none => (vars, false)
  | some decl =>
    (vars.map fun v => if v.decl = decl then v.addCandidate slot.layout else v,
      vars.any fun v => v.decl = decl && v.accepts slot.layout)

/-- Hand all argument layouts on to the parameters. -/
def propagate (p : Program) :
    List NodeId → List Slot → List Variable → List Variable × Bool
  | param :: params, slot :: slots, vars =>
    let (vars, changed) := handOver p param slot vars
    let (vars, changedLater) := propagate p params slots vars
    (vars, changed || changedLater)
  | _, _, vars => (vars, false)

/-- Give up waiting for properties of the returned record. -/
def settle (r : Routine) : Routine :=
  { r with retProps := r.retProps.map fun p => { p with resolved := true } }

end Routine

/-! ## Passes -/

namespace Subject

variable (s : Subject)

/-- Pick all winners. -/
def collapsePhase : StateM State Bool := fun st =>
  let ((vars, changed), registry) := Variable.collapseAll st.registry st.vars
  (changed, { st with vars, registry })

/-- Keep what can be kept of the promises of all variables. -/
def dischargePhase : StateM State Bool := do
  let st ← get
  let (vars, progressed) ← State.withStore (Variable.dischargeAll (st.view s) st.vars)
  modify fun st => { st with vars }
  return progressed

/-- Settle one function and hand its argument layouts on. -/
def routineStep (r : Routine) : StateM State Bool := do
  let st ← get
  let (r, progressed) ← State.withStore (r.discharge (st.view s))
  State.changeRoutine r.node fun _ => r
  let (vars, changed) := Routine.propagate s.program r.params r.args st.vars
  modify fun st => { st with vars }
  return progressed || changed

/-- Settle a list of functions one after the other. -/
def routinePhase : List Routine → StateM State Bool
  | [] => pure false
  | r :: rs => do
    let changed ← s.routineStep r
    let changedLater ← routinePhase rs
    return changed || changedLater

/-- One pass. Tells whether anything changed. -/
def pass : StateM State Bool := do
  let collapsed ← collapsePhase
  let discharged ← s.dischargePhase
  let settled ← s.routinePhase (← get).routines
  return collapsed || discharged || settled

/-- Give up on returned properties. Tells whether there were any to give up. -/
def settleReturns : StateM State Bool := fun st =>
  (st.routines.any Routine.shaping, { st with routines := st.routines.map Routine.settle })

/-- How a series of passes ended. -/
structure Outcome where
  state : State
  iterations : Nat
  converged : Bool

/-- Run passes until one changes nothing, at most `left` more after the `done` behind. -/
def passes (done : Nat) : (left : Nat) → State → Outcome
  | 0, st =>
    let st := (collapsePhase st).2
    let st := (State.withStore (Store.note s.program (.notConverged done) none) st).2
    ⟨st, done, false⟩
  | left + 1, st =>
    let (changed, st) := s.pass st
    if changed then passes (done + 1) left st
    else
      let (settled, st) := settleReturns st
      if settled then passes (done + 1) left st else ⟨st, done + 1, true⟩

/-- Collect the evidence and resolve it with at most `bound` passes. -/
def resolve (bound : Nat) : Outcome := s.passes 0 bound s.collect

end Subject

end LayoutInference
