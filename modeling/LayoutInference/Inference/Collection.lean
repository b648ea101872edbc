import LayoutInference.Inference.Current

/-!
# Collecting evidence

One walk over the nodes of a program in order records what each of them says: initial values and
assignments, property and element writes, pushes and pops, call arguments and return values. What
cannot be decided on the spot becomes a promise.
-/

namespace LayoutInference

/-- The state of an inference run: what derivation builds up, and the evidence. -/
structure State extends Store where
  vars : List Variable := []
  routines : List Routine := []

namespace State

/-- The evidence together with the program it is about. -/
def view (st : State) (s : Subject) : View := { s with vars := st.vars, routines := st.routines }

/-- Run a step of derivation. -/
def withStore {α : Type} (step : StateM Store α) : StateM State α := fun st =>
  let (a, store) := step st.toStore
  (a, { st with toStore := store })

/-- Change the variable of a declaration. -/
def changeVariable (decl : NodeId) (change : Variable → Variable) : StateM State Unit :=
  modify fun st => { st with
    vars := st.vars.map fun v => if v.decl = decl then change v else v }

/-- Change the evidence about a function. -/
def changeRoutine (fn : NodeId) (change : Routine → Routine) : StateM State Unit :=
  modify fun st => { st with
    routines := st.routines.map fun r => if r.node = fn then change r else r }

/-- Change the variable of a declaration by an operation that may use the registry. -/
def changeVariableWith (decl : NodeId) (change : Variable → Registry → Variable × Registry) :
    StateM State Unit := do
  match (← get).vars.find? (·.decl = decl) with
  | none => pure ()
  | some v =>
    let changed ← withStore (Store.withRegistry (change v))
    changeVariable decl fun _ => changed

end State

/-! ## Changes that make containers -/

namespace Variable

/-- An array candidate with unknown elements takes `l` as their layout; an empty array of fixed length
becomes a growing one. Also tells whether the candidate changed. -/
def refineCandidate (l : Layout) (registry : Registry) : Layout → (Layout × Bool) × Registry
  | .fixed elem capacity =>
    if elem.isFallback then
      let (array, registry) :=
        if capacity = 0 then registry.dynamicArray l else registry.fixedArray l capacity
      ((array, true), registry)
    else ((.fixed elem capacity, false), registry)
  | .dynamic elem =>
    if elem.isFallback then
      let (array, registry) := registry.dynamicArray l
      ((array, true), registry)
    else ((.dynamic elem, false), registry)
  | other => ((other, false), registry)

/-- Refine each of a list of candidates. Also tells whether one of them changed. -/
def refineCandidates (l : Layout) (registry : Registry) :
    List Layout → (List Layout × Bool) × Registry
  | [] => (([], false), registry)
  | c :: cs =>
    let ((c, changed), registry) := refineCandidate l registry c
    let ((cs, changedLater), registry) := refineCandidates l registry cs
    ((c :: cs, changed || changedLater), registry)

/-- Give array candidates with unknown elements the layout `l` for them. Also tells whether any took
it. -/
def refineElements (v : Variable) (l : Layout) (registry : Registry) : (Variable × Bool) × Registry :=
  if l.isFallback then ((v, false), registry)
  else
    let ((candidates, changed), registry) := refineCandidates l registry v.candidates
    (({ v with candidates }, changed), registry)

/-- Whether a candidate is an array of fixed length that turns into a growing array of `l`. -/
def promotes (l : Layout) : Layout → Bool
  | .fixed elem _ => elem.same l || elem.isFallback
  | _ => false

/-- Record that elements of layout `l` are pushed: arrays of fixed length with such or unknown elements
become growing ones, else the growing array is a new candidate. -/
def addPushed (v : Variable) (l : Layout) (registry : Registry) : Variable × Registry :=
  let (array, registry) := registry.dynamicArray l
  if v.candidates.any (promotes l) then
    let candidates := v.candidates.map fun c => if promotes l c then array else c
    ({ v with candidates := distinct candidates }, registry)
  else (v.addCandidate array, registry)

end Variable

/-! ## The walk -/

namespace Subject

variable (s : Subject)

/-- The variable that a node declares or refers to. -/
def variableOf? (id : NodeId) : StateM State (Option Variable) := do
  return ((← get).view s).variableOf? id

/-- The variable that an identifier refers to. -/
def owner? (id : Option NodeId) : StateM State (Option Variable) :=
  match s.program.at? id with
  | some n => if n.kind = .identifier then s.variableOf? n.id else pure none
  | none => pure none

/-- Whether a value is an identifier that refers to the variable declared at `decl`. -/
def readsOwner (decl : NodeId) (value : Option NodeId) : StateM State Bool := do
  return (← s.owner? value).any (·.decl = decl)

/-- The layout of an expression where it stands; none if it must be put off. -/
def derived (hint : String) (id : NodeId) : StateM State (Option Layout) :=
  State.withStore (s.determine hint id)

/-- Promise the members of an object literal that cannot be decided yet to its owner. -/
def promiseMembers (decl : NodeId) : List NodeId → StateM State Unit
  | [] => pure ()
  | id :: ids => do
    match s.program.node? id with
    | none => pure ()
    | some property =>
      match property.expr with
      | none => pure ()
      | some value =>
        if property.isMember then
          unless ← s.readsOwner decl value do
            if s.defers value then
              State.changeVariable decl (·.addPromise { node := value, property := property.name })
    promiseMembers decl ids

/-- Record the value that a variable starts with or is assigned. Functions say nothing. -/
def addValue (v : Variable) (value : NodeId) : StateM State Unit :=
  match s.program.node? value with
  | none => pure ()
  | some n =>
    if n.kind = .function then pure ()
    else do
      if n.kind = .objectLiteral then
        State.changeVariable v.decl fun v => { v with objectLiteral := true }
        s.promiseMembers v.decl n.items
      match ← s.derived v.name value with
      | none => State.changeVariable v.decl (·.addPromise { node := value })
      | some l => State.changeVariable v.decl (·.addCandidate l)

/-- Record what a loop over a collection assigns in each round: keys are text, elements are
promised. -/
def addLoopValue (v : Variable) (loop : Node) : StateM State Unit :=
  if loop.kind = .forIn then State.changeVariable v.decl (·.addCandidate .string)
  else match loop.expr with
    | none => pure ()
    | some source => State.changeVariable v.decl (·.addPromise { node := source, use := .elementOf })

/-- Record a declaration. -/
def collectDeclaration (n : Node) : StateM State Unit := do
  match ← s.variableOf? n.id with
  | none => pure ()
  | some v =>
    match s.program.at? n.parent, n.expr with
    | some parent, expr =>
      if parent.target = some n.id ∧ (parent.kind = .forOf ∨ parent.kind = .forIn) then
        addLoopValue v parent
      else match expr with
        | none => pure ()
        | some value => s.addValue v value
    | none, none => pure ()
    | none, some value => s.addValue v value

/-- Record the default value of a parameter that is the first of its name. -/
def collectParameter (n : Node) : StateM State Unit := do
  match (← get).vars.find? (·.decl = n.id), n.expr with
  | some v, some value => s.addValue v value
  | _, _ => pure ()

/-- Record a loop that assigns to an existing variable. -/
def collectLoop (n : Node) : StateM State Unit := do
  match ← s.owner? n.target with
  | none => pure ()
  | some v => addLoopValue v n

/-- Record a write under a computed key, which makes the variable a dictionary. -/
def addKeyed (v : Variable) (value : NodeId) : StateM State Unit := do
  State.changeVariable v.decl (·.makeDictionary)
  match ← s.derived "" value with
  | none => State.changeVariable v.decl (·.addPromise { node := value, use := .dictOf })
  | some l => State.changeVariableWith v.decl fun v registry =>
      let (dict, registry) := registry.dictionary l
      (v.addCandidate dict, registry)

/-- Record a write to a named property. -/
def addProperty (v : Variable) (name : String) (value : NodeId) : StateM State Unit := do
  if v.dictionary then s.addKeyed v value
  else if ← s.readsOwner v.decl value then State.changeVariable v.decl (·.writeSelf name)
  else match ← s.derived name value with
    | none =>
      State.changeVariable v.decl fun v =>
        (v.reserve name).addPromise { node := value, property := name }
    | some l => State.changeVariable v.decl (·.write name l)

/-- Record a write under a number. -/
def addElement (v : Variable) (value : NodeId) : StateM State Unit := do
  match ← s.derived "" value with
  | none => State.changeVariable v.decl (·.addPromise { node := value, use := .indexed })
  | some l => State.changeVariableWith v.decl fun v registry =>
      let ((v, _), registry) := v.refineElements l registry
      (v, registry)

/-- Record a plain assignment. -/
def collectAssignment (n : Node) : StateM State Unit :=
  if n.value ≠ "=" then pure ()
  else match s.program.at? n.target, n.expr with
    | some target, some value =>
      match target.kind with
      | .identifier => do
        match ← s.variableOf? target.id with
        | none => pure ()
        | some v => s.addValue v value
      | .propertyAccess => do
        match ← s.owner? target.target with
        | none => pure ()
        | some v => s.addProperty v target.name value
      | .elementAccess => do
        match ← s.owner? target.target, s.program.at? target.expr with
        | some v, some key =>
          if key.kind = .string then s.addProperty v key.value value
          else if key.kind = .number || (s.apparent key.id).isNumber then s.addElement v value
          else s.addKeyed v value
        | _, _ => pure ()
      | _ => pure ()
    | _, _ => pure ()

/-- Record what a call pushes onto a variable. -/
def addPush (v : Variable) (argument : Option NodeId) : StateM State Unit := do
  State.changeVariable v.decl fun v => { v with growing := true }
  match argument with
  | none => pure ()
  | some value =>
    match ← s.derived "" value with
    | none => State.changeVariable v.decl (·.addPromise { node := value, use := .arrayOf })
    | some l => State.changeVariableWith v.decl fun v registry => v.addPushed l registry

/-- Record what a call pushes onto a property of a variable. -/
def addPropertyPush (receiver : Node) (value : NodeId) : StateM State Unit := do
  match ← s.owner? receiver.target with
  | none => pure ()
  | some v =>
    if v.dictionary then pure ()
    else match ← s.derived "" value with
      | none =>
        State.changeVariable v.decl fun v =>
          (v.reserve receiver.name).addPromise
            { node := value, use := .arrayOf, property := receiver.name }
      | some l => State.changeVariableWith v.decl fun v registry =>
          let (array, registry) := registry.dynamicArray l
          (v.write receiver.name array, registry)

/-- Record a call of a method that grows or shrinks an array. -/
def collectMethodCall (n callee : Node) : StateM State Unit :=
  match callee.name with
  | "push" | "unshift" => do
    match ← s.owner? callee.target with
    | some v => s.addPush v n.items.head?
    | none =>
      match s.program.at? callee.target, n.items.head? with
      | some receiver, some value =>
        if receiver.kind = .propertyAccess then s.addPropertyPush receiver value
      | _, _ => pure ()
  | "pop" | "shift" => do
    match ← s.owner? callee.target with
    | some v => State.changeVariable v.decl fun v => { v with growing := true }
    | none => pure ()
  | _ => pure ()

/-- Change the slot at an index. -/
def changeSlot (index : Nat) (change : Slot → Slot) (r : Routine) : Routine :=
  { r with args := r.args.modify index change }

/-- Record the arguments of a call from `index` on, as far as the function has parameters. -/
def addArguments (fn : NodeId) (params : List NodeId) (index : Nat) : List NodeId → StateM State Unit
  | [] => pure ()
  | argument :: rest =>
    match params[index]? with
    | none => pure ()
    | some param => do
      let hint := ((s.program.node? param).map (·.name)).getD ""
      match ← s.derived hint argument with
      | none =>
        State.changeRoutine fn <| changeSlot index fun slot =>
          { slot with promises := slot.promises ++ [{ node := argument }] }
      | some l =>
        State.changeRoutine fn <| changeSlot index fun slot =>
          if slot.layout = .missing && !l.isFallback then { slot with layout := l } else slot
      addArguments fn params (index + 1) rest

/-- Record a call. -/
def collectCall (n : Node) : StateM State Unit :=
  match s.program.at? n.target with
  | none => pure ()
  | some callee =>
    if callee.kind = .propertyAccess then s.collectMethodCall n callee
    else do
      let routine? := (s.program.functionOf callee.id).bind ((← get).view s).routine?
      match routine? with
      | none => pure ()
      | some r =>
        State.changeRoutine r.node fun r => { r with calls := r.calls + 1 }
        s.addArguments r.node r.params 0 n.items

/-- The members of a returned object literal that cannot be decided yet. -/
def deferredMembers : List NodeId → List Promise
  | [] => []
  | id :: ids =>
    match s.program.node? id with
    | none => deferredMembers ids
    | some property =>
      match property.expr with
      | none => deferredMembers ids
      | some value =>
        if property.isMember && s.defers value then
          { node := value, property := property.name } :: deferredMembers ids
        else deferredMembers ids

/-- Record a return statement. The first value with a layout is what the function returns. -/
def collectReturn (n : Node) : StateM State Unit := do
  match n.func.bind ((← get).view s).routine? with
  | none => pure ()
  | some r =>
    State.changeRoutine r.node fun r => { r with hasReturn := true }
    match n.expr with
    | none => pure ()
    | some value =>
      State.changeRoutine r.node fun r => { r with valued := true }
      match s.program.node? value with
      | none => pure ()
      | some expr =>
        if expr.kind = .function then pure ()
        else
          let l := (← s.derived "" value).getD .missing
          if l.isFallback then
            State.changeRoutine r.node fun r =>
              { r with retPromises := r.retPromises ++ [{ node := value }] }
          else if r.ret ≠ .missing then pure ()
          else
            State.changeRoutine r.node fun r => { r with
              ret := l
              retProps := if expr.kind = .objectLiteral then s.deferredMembers expr.items else [] }

/-- Record what one node says. -/
def collectNode (n : Node) : StateM State Unit :=
  if n.unsupported then
    State.withStore (Store.note s.program (.unsupported n.value) (some n.id))
  else match n.kind with
    | .variable => s.collectDeclaration n
    | .parameter => s.collectParameter n
    | .forOf | .forIn => s.collectLoop n
    | .assign => s.collectAssignment n
    | .call => s.collectCall n
    | .ret => s.collectReturn n
    | .arrayLiteral | .objectLiteral => do discard (s.derived "" n.id)
    | _ => pure ()

/-- The variables and functions of a program, without evidence. -/
def initialState : State where
  vars := s.program.declarations.filterMap fun id =>
    (s.program.node? id).map fun n =>
      { decl := id
        name := n.name
        func := if n.kind = .parameter then n.parent else n.func
        parameter := n.kind = .parameter
        ordinal := n.ordinal }
  routines := (s.program.nodes.toList.filter (·.kind = .function)).map fun n =>
    { node := n.id, name := n.name, params := n.items, args := n.items.map fun _ => {} }

/-- The state after the walk over all nodes. -/
def collect : State := (s.program.nodes.toList.forM s.collectNode s.initialState).2

end Subject

end LayoutInference
