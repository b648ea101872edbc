import Mathlib
import LayoutInference.Proofs.Lockstep
import LayoutInference.Proofs.Walk

/-!
# Evidence with and without names

The walk over a program and the one over the program without names collect the same evidence
(`Subject.collect_alike`). `State.Alike` relates their states: every variable and every function of one is
that of the other with its name taken away. What the walk does to a variable or a function commutes with
taking the name away, and every step of the walk goes in lockstep.
-/

namespace LayoutInference

/-! ## Variables and functions -/

namespace Variable

variable (v : Variable)

/-- A candidate is added in the same way without a name. -/
theorem addCandidate_nameless (l : Layout) :
    v.nameless.addCandidate l = (v.addCandidate l).nameless := by
  have haccepts : v.nameless.accepts l = v.accepts l := rfl
  rw [addCandidate, addCandidate, haccepts]
  split <;> rfl

/-- A variable is made a dictionary in the same way without a name. -/
theorem makeDictionary_nameless : v.nameless.makeDictionary = v.makeDictionary.nameless := by
  rw [makeDictionary, makeDictionary, nameless_dictionary]
  split <;> rfl

/-- Refining a candidate is in lockstep. -/
theorem refineCandidate_lockstep (l c : Layout) :
    Lockstep Registry.Alike id (fun r => refineCandidate l r c) (fun t => refineCandidate l t c) := by
  have hrefined (array : Layout) : Lockstep Registry.Alike id
      (fun r => (((r.intern array).1, true), (r.intern array).2))
      (fun t => (((t.intern array).1, true), (t.intern array).2)) :=
    (Registry.intern_lockstep array).map (f := fun l => (l, true)) (g := fun l => (l, true))
      fun _ => rfl
  intro r t h
  cases c with
  | fixed elem capacity =>
    simp only [refineCandidate]
    split
    · split
      · exact hrefined (.dynamic l) r t h
      · exact hrefined (.fixed l capacity) r t h
    · exact ⟨rfl, h⟩
  | dynamic elem =>
    simp only [refineCandidate]
    split
    · exact hrefined (.dynamic l) r t h
    · exact ⟨rfl, h⟩
  | missing | scalar | dict | record => exact ⟨rfl, h⟩

/-- Refining candidates is in lockstep. -/
theorem refineCandidates_lockstep (l : Layout) (cs : List Layout) : Lockstep Registry.Alike id
    (fun r => refineCandidates l r cs) (fun t => refineCandidates l t cs) := by
  induction cs with
  | nil => exact .pure rfl
  | cons c cs ih =>
    show Lockstep Registry.Alike id
      (do let first ← (refineCandidate l · c : StateM Registry _)
          let rest ← (refineCandidates l · cs : StateM Registry _)
          return (first.1 :: rest.1, first.2 || rest.2))
      (do let first ← (refineCandidate l · c : StateM Registry _)
          let rest ← (refineCandidates l · cs : StateM Registry _)
          return (first.1 :: rest.1, first.2 || rest.2))
    exact (refineCandidate_lockstep l c).bind fun _ => ih.bind fun _ => .pure rfl

/-- Refining the elements of a variable is in lockstep. -/
theorem refineElements_lockstep (l : Layout) : Lockstep Registry.Alike (Prod.map nameless id)
    (v.refineElements l) (v.nameless.refineElements l) := by
  intro r t h
  simp only [refineElements]
  split
  · exact ⟨rfl, h⟩
  · exact (refineCandidates_lockstep l v.candidates).map (d := Prod.map nameless id)
      (f := fun a => ({ v with candidates := a.1 }, a.2))
      (g := fun a => ({ v.nameless with candidates := a.1 }, a.2)) (fun _ => rfl) r t h

/-- Noting a pushed element is in lockstep. -/
theorem addPushed_lockstep (l : Layout) :
    Lockstep Registry.Alike nameless (v.addPushed l) (v.nameless.addPushed l) := by
  intro r t h
  simp only [addPushed, nameless_candidates]
  split
  · let promoted (array : Layout) : List Layout :=
      distinct (v.candidates.map fun c => if promotes l c then array else c)
    exact (Registry.intern_lockstep (.dynamic l)).map (d := nameless)
      (f := fun array => { v with candidates := promoted array })
      (g := fun array => { v.nameless with candidates := promoted array }) (fun _ => rfl) r t h
  · exact (Registry.intern_lockstep (.dynamic l)).map (f := v.addCandidate)
      (g := v.nameless.addCandidate) v.addCandidate_nameless r t h

end Variable

/-! ## States -/

namespace State

/-- The states differ in names alone. -/
structure Alike (p : Program) (st st' : State) : Prop where
  store : Store.Alike p st.toStore st'.toStore
  vars : st'.vars = st.vars.map Variable.nameless
  routines : st'.routines = st.routines.map Routine.nameless

/-- The computations give the same answer. -/
abbrev InStep {α : Type} (p : Program) (x y : StateM State α) : Prop := Lockstep (Alike p) id x y

variable {p : Program}

/-- The variable of a declaration is found with and without names. -/
theorem Alike.find? {st st' : State} (h : st.Alike p st') (decl : NodeId) :
    st'.vars.find? (·.decl = decl) = (st.vars.find? (·.decl = decl)).map Variable.nameless := by
  rw [h.vars]
  exact List.find?_map ..

/-- The views of states that are alike differ in names alone. -/
theorem Alike.view {st st' : State} (h : st.Alike p st') (s : Subject) :
    st'.view s.nameless = (st.view s).nameless := by
  rw [State.view, State.view, View.nameless, h.vars, h.routines]

/-- Steps of the store that are in lockstep are so in the state. -/
theorem withStore_lockstep {α : Type} {e : α → α} {x y : StateM Store α}
    (h : Lockstep (Store.Alike p) e x y) : Lockstep (Alike p) e (withStore x) (withStore y) := by
  intro st st' hst
  obtain ⟨hanswer, hstore⟩ := h st.toStore st'.toStore hst.store
  exact ⟨hanswer, hstore, hst.vars, hst.routines⟩

/-- Changes of a variable that commute with taking its name away are in lockstep. -/
theorem changeVariable_lockstep (decl : NodeId) {change change' : Variable → Variable}
    (h : ∀ v, change' v.nameless = (change v).nameless) :
    InStep p (changeVariable decl change) (changeVariable decl change') := by
  refine .update fun st st' hst => ⟨hst.store, ?_, hst.routines⟩
  simp only [hst.vars, List.map_map]
  refine List.map_congr_left fun v _ => ?_
  simp only [Function.comp_apply, apply_ite Variable.nameless, ← h]
  rfl

/-- Changes of a function that commute with taking its name away are in lockstep. -/
theorem changeRoutine_lockstep (fn : NodeId) {change change' : Routine → Routine}
    (h : ∀ r, change' r.nameless = (change r).nameless) :
    InStep p (changeRoutine fn change) (changeRoutine fn change') := by
  refine .update fun st st' hst => ⟨hst.store, hst.vars, ?_⟩
  simp only [hst.routines, List.map_map]
  refine List.map_congr_left fun r _ => ?_
  simp only [Function.comp_apply, apply_ite Routine.nameless, ← h]
  rfl

/-- Changes of a variable that may also register layouts are in lockstep if they are so on the variable.
-/
theorem changeVariableWith_lockstep (decl : NodeId)
    {change change' : Variable → Registry → Variable × Registry}
    (h : ∀ v, Lockstep Registry.Alike Variable.nameless (change v) (change' v.nameless)) :
    InStep p (changeVariableWith decl change) (changeVariableWith decl change') := by
  refine .read fun st st' hst => ?_
  rw [hst.find?]
  cases st.vars.find? (·.decl = decl) with
  | none => exact .pure rfl
  | some v =>
    refine (withStore_lockstep (Store.withRegistry_lockstep (h v))).bindErased fun changed => ?_
    exact changeVariable_lockstep decl fun _ => rfl

end State

/-! ## The walk -/

open State (InStep changeVariable_lockstep changeRoutine_lockstep changeVariableWith_lockstep)

namespace Subject

variable (s : Subject)

/-- Looking up a variable is in lockstep. -/
theorem variableOf?_lockstep (id : NodeId) : Lockstep (State.Alike s.program)
    (Option.map Variable.nameless) (s.variableOf? id) (s.nameless.variableOf? id) := by
  refine .read fun st st' hst => .pure ?_
  rw [hst.view, View.variableOf?_nameless]

/-- Looking up the owner of an expression is in lockstep. -/
theorem owner?_lockstep (id : Option NodeId) : Lockstep (State.Alike s.program)
    (Option.map Variable.nameless) (s.owner? id) (s.nameless.owner? id) := by
  simp only [owner?, program_nameless, Program.at?_nameless]
  cases s.program.at? id with
  | none => exact .pure rfl
  | some n =>
    simp only [Option.map_some, Node.nameless_kind, Node.nameless_id]
    split
    · exact s.variableOf?_lockstep n.id
    · exact .pure rfl

/-- Whether a value is read from the variable itself is answered in lockstep. -/
theorem readsOwner_lockstep (decl : NodeId) (value : Option NodeId) :
    InStep s.program (s.readsOwner decl value) (s.nameless.readsOwner decl value) := by
  refine (s.owner?_lockstep value).bindErased fun found => .pure ?_
  cases found <;> rfl

/-- Deriving a layout for the walk is in lockstep. -/
theorem derived_lockstep (hint hint' : String) (value : NodeId) :
    InStep s.program (s.derived hint value) (s.nameless.derived hint' value) :=
  State.withStore_lockstep (s.determine_lockstep hint hint' value)

/-- The promises for the members of an object literal are made in lockstep. -/
theorem promiseMembers_lockstep (decl : NodeId) (ids : List NodeId) :
    InStep s.program (s.promiseMembers decl ids) (s.nameless.promiseMembers decl ids) := by
  induction ids with
  | nil => exact .pure rfl
  | cons id ids ih =>
    simp only [promiseMembers, program_nameless, Program.node?_nameless]
    cases s.program.node? id with
    | none => exact ih
    | some property =>
      simp only [Option.map_some, Node.nameless_expr, Node.nameless_isMember, defers_nameless]
      cases property.expr with
      | none => exact ih
      | some value =>
        dsimp only
        split
        · next hmember =>
          rw [Node.name_of_isMember hmember]
          refine (s.readsOwner_lockstep decl value).bind fun reads => ?_
          split
          · exact ih
          · split
            · exact .bind (changeVariable_lockstep decl fun _ => rfl) fun _ => ih
            · exact ih
        · exact ih

/-- Go on with the layout of a value, or without one. -/
theorem withLayout_lockstep (hint hint' : String) (value : NodeId) {absent absent' : StateM State Unit}
    {present present' : Layout → StateM State Unit} (habsent : InStep s.program absent absent')
    (hpresent : ∀ l, InStep s.program (present l) (present' l)) :
    InStep s.program (s.withLayout hint value absent present)
      (s.nameless.withLayout hint' value absent' present') := by
  refine (s.derived_lockstep hint hint' value).bind fun answer => ?_
  cases answer with
  | none => exact habsent
  | some l => exact hpresent l

/-- A value that a variable receives is noted in lockstep. -/
theorem addValue_lockstep (v : Variable) (value : NodeId) :
    InStep s.program (s.addValue v value) (s.nameless.addValue v.nameless value) := by
  have hvalue : InStep s.program
      (s.withLayout v.name value (State.changeVariable v.decl (·.addPromise { node := value }))
        fun l => State.changeVariable v.decl (·.addCandidate l))
      (s.nameless.withLayout v.nameless.name value
        (State.changeVariable v.decl (·.addPromise { node := value }))
        fun l => State.changeVariable v.decl (·.addCandidate l)) :=
    s.withLayout_lockstep _ _ value (changeVariable_lockstep v.decl fun _ => rfl)
      fun l => changeVariable_lockstep v.decl fun v => v.addCandidate_nameless l
  simp only [addValue, program_nameless, Program.node?_nameless]
  cases s.program.node? value with
  | none => exact .pure rfl
  | some n =>
    simp only [Option.map_some, Node.nameless_kind, Node.nameless_items]
    split
    · exact .pure rfl
    · split
      · refine .bind (changeVariable_lockstep v.decl fun _ => rfl) fun _ => ?_
        exact (s.promiseMembers_lockstep v.decl n.items).bind fun _ => hvalue
      · exact hvalue

/-- What a loop says about its variable is noted in lockstep. -/
theorem addLoopValue_lockstep (v : Variable) (loop : Node) :
    InStep s.program (addLoopValue v loop) (addLoopValue v.nameless loop.nameless) := by
  simp only [addLoopValue, Node.nameless_kind, Node.nameless_expr]
  split
  · exact changeVariable_lockstep v.decl fun v => v.addCandidate_nameless _
  · cases loop.expr with
    | none => exact .pure rfl
    | some source => exact changeVariable_lockstep v.decl fun _ => rfl

/-- A declaration is collected in lockstep. -/
theorem collectDeclaration_lockstep (n : Node) :
    InStep s.program (s.collectDeclaration n) (s.nameless.collectDeclaration n.nameless) := by
  refine (s.variableOf?_lockstep n.id).bindErased fun found => ?_
  simp only [program_nameless, Program.at?_nameless, Node.nameless_parent, Node.nameless_expr]
  cases found with
  | none => exact .pure rfl
  | some v =>
    cases s.program.at? n.parent with
    | none =>
      cases n.expr with
      | none => exact .pure rfl
      | some value => exact s.addValue_lockstep v value
    | some parent =>
      simp only [Option.map_some, Node.nameless_target, Node.nameless_kind, Node.nameless_id]
      split
      · exact s.addLoopValue_lockstep v parent
      · cases n.expr with
        | none => exact .pure rfl
        | some value => exact s.addValue_lockstep v value

/-- A parameter is collected in lockstep. -/
theorem collectParameter_lockstep (n : Node) :
    InStep s.program (s.collectParameter n) (s.nameless.collectParameter n.nameless) := by
  refine .read fun st st' hst => ?_
  rw [hst.find?, Node.nameless_id, Node.nameless_expr]
  cases st.vars.find? (·.decl = n.id) with
  | none => exact .pure rfl
  | some v =>
    cases n.expr with
    | none => exact .pure rfl
    | some value => exact s.addValue_lockstep v value

/-- A loop is collected in lockstep. -/
theorem collectLoop_lockstep (n : Node) :
    InStep s.program (s.collectLoop n) (s.nameless.collectLoop n.nameless) := by
  refine (s.owner?_lockstep n.target).bindErased fun found => ?_
  cases found with
  | none => exact .pure rfl
  | some v => exact s.addLoopValue_lockstep v n

/-- A value under a computed key is noted in lockstep. -/
theorem addKeyed_lockstep (v : Variable) (value : NodeId) :
    InStep s.program (s.addKeyed v value) (s.nameless.addKeyed v.nameless value) := by
  refine (changeVariable_lockstep v.decl Variable.makeDictionary_nameless).bind fun _ => ?_
  refine s.withLayout_lockstep "" "" value (changeVariable_lockstep v.decl fun _ => rfl) fun l => ?_
  exact changeVariableWith_lockstep v.decl fun v => (Registry.intern_lockstep (.dict l)).map
    (f := v.addCandidate) (g := v.nameless.addCandidate) v.addCandidate_nameless

/-- A property is noted in lockstep. -/
theorem addProperty_lockstep (v : Variable) (name : String) (value : NodeId) :
    InStep s.program (s.addProperty v name value) (s.nameless.addProperty v.nameless name value) := by
  rw [addProperty, addProperty, Variable.nameless_dictionary]
  split
  · exact s.addKeyed_lockstep v value
  · refine (s.readsOwner_lockstep v.decl value).bind fun reads => ?_
    split
    · exact changeVariable_lockstep v.decl fun _ => rfl
    · exact s.withLayout_lockstep name name value (changeVariable_lockstep v.decl fun _ => rfl)
        fun l => changeVariable_lockstep v.decl fun _ => rfl

/-- An element is noted in lockstep. -/
theorem addElement_lockstep (v : Variable) (value : NodeId) :
    InStep s.program (s.addElement v value) (s.nameless.addElement v.nameless value) := by
  refine s.withLayout_lockstep "" "" value (changeVariable_lockstep v.decl fun _ => rfl) fun l => ?_
  exact changeVariableWith_lockstep v.decl fun v => (v.refineElements_lockstep l).map
    (f := Prod.fst) (g := Prod.fst) fun _ => rfl

/-- An assignment is collected in lockstep. -/
theorem collectAssignment_lockstep (n : Node) :
    InStep s.program (s.collectAssignment n) (s.nameless.collectAssignment n.nameless) := by
  simp only [collectAssignment, Node.nameless_value, program_nameless, Program.at?_nameless,
    Node.nameless_target, Node.nameless_expr, apparent_nameless]
  split
  · exact .pure rfl
  · cases s.program.at? n.target with
    | none => exact .pure rfl
    | some target =>
      cases n.expr with
      | none => exact .pure rfl
      | some value =>
        simp only [Option.map_some, Node.nameless_kind, Node.nameless_id, Node.nameless_target,
          Node.nameless_expr]
        split
        · refine (s.variableOf?_lockstep target.id).bindErased fun found => ?_
          cases found with
          | none => exact .pure rfl
          | some v => exact s.addValue_lockstep v value
        · next hkind =>
          refine (s.owner?_lockstep target.target).bindErased fun found => ?_
          cases found with
          | none => exact .pure rfl
          | some v =>
            rw [Node.name_of_propertyAccess hkind]
            exact s.addProperty_lockstep v target.name value
        · refine (s.owner?_lockstep target.target).bindErased fun found => ?_
          cases found with
          | none => exact .pure rfl
          | some v =>
            cases s.program.at? target.expr with
            | none => exact .pure rfl
            | some key =>
              simp only [Option.map_some, Node.nameless_kind, Node.nameless_value, Node.nameless_id]
              split
              · exact s.addProperty_lockstep v key.value value
              · split
                · exact s.addElement_lockstep v value
                · exact s.addKeyed_lockstep v value
        · exact .pure rfl

/-- An element pushed to a variable is noted in lockstep. -/
theorem addPush_lockstep (v : Variable) (argument : Option NodeId) :
    InStep s.program (s.addPush v argument) (s.nameless.addPush v.nameless argument) := by
  refine .bind (changeVariable_lockstep v.decl fun _ => rfl) fun _ => ?_
  cases argument with
  | none => exact .pure rfl
  | some value =>
    exact s.withLayout_lockstep "" "" value (changeVariable_lockstep v.decl fun _ => rfl)
      fun l => changeVariableWith_lockstep v.decl fun v => v.addPushed_lockstep l

/-- An element pushed to a property is noted in lockstep. -/
theorem addPropertyPush_lockstep {receiver : Node} (hkind : receiver.kind = .propertyAccess)
    (value : NodeId) : InStep s.program (s.addPropertyPush receiver value)
      (s.nameless.addPropertyPush receiver.nameless value) := by
  simp only [addPropertyPush, Node.name_of_propertyAccess hkind]
  refine (s.owner?_lockstep receiver.target).bindErased fun found => ?_
  cases found with
  | none => exact .pure rfl
  | some v =>
    simp only [Option.map_some, Variable.nameless_dictionary]
    split
    · exact .pure rfl
    · refine s.withLayout_lockstep "" "" value (changeVariable_lockstep v.decl fun _ => rfl) fun l => ?_
      exact changeVariableWith_lockstep v.decl fun v => (Registry.intern_lockstep (.dynamic l)).map
        (f := v.write receiver.name) (g := v.nameless.write receiver.name) fun _ => rfl

/-- A method call is collected in lockstep. -/
theorem collectMethodCall_lockstep (n : Node) {callee : Node} (hkind : callee.kind = .propertyAccess) :
    InStep s.program (s.collectMethodCall n callee)
      (s.nameless.collectMethodCall n.nameless callee.nameless) := by
  simp only [collectMethodCall, Node.name_of_propertyAccess hkind, program_nameless,
    Program.at?_nameless, Node.nameless_target, Node.nameless_items]
  split
  case h_1 | h_2 =>
    refine (s.owner?_lockstep callee.target).bindErased fun found => ?_
    cases found with
    | some v => exact s.addPush_lockstep v n.items.head?
    | none =>
      cases s.program.at? callee.target with
      | none => exact .pure rfl
      | some receiver =>
        cases n.items.head? with
        | none => exact .pure rfl
        | some value =>
          simp only [Option.map_some, Option.map_none, Node.nameless_kind]
          split
          · next hreceiver => exact s.addPropertyPush_lockstep hreceiver value
          · exact .pure rfl
  case h_3 | h_4 =>
    refine (s.owner?_lockstep callee.target).bindErased fun found => ?_
    cases found with
    | some v => exact changeVariable_lockstep v.decl fun _ => rfl
    | none => exact .pure rfl
  case h_5 => exact .pure rfl

/-- The arguments of a call are noted in lockstep. -/
theorem addArguments_lockstep (fn : NodeId) (params : List NodeId) (index : Nat)
    (arguments : List NodeId) : InStep s.program (s.addArguments fn params index arguments)
      (s.nameless.addArguments fn params index arguments) := by
  induction arguments generalizing index with
  | nil => exact .pure rfl
  | cons argument rest ih =>
    rw [addArguments, addArguments]
    cases params[index]? with
    | none => exact .pure rfl
    | some param =>
      refine s.withLayout_lockstep _ _ argument ?_ fun l => ?_
      · exact .bind (changeRoutine_lockstep fn fun _ => rfl) fun _ => ih (index + 1)
      · exact .bind (changeRoutine_lockstep fn fun _ => rfl) fun _ => ih (index + 1)

/-- A call is collected in lockstep. -/
theorem collectCall_lockstep (n : Node) :
    InStep s.program (s.collectCall n) (s.nameless.collectCall n.nameless) := by
  simp only [collectCall, program_nameless, Program.at?_nameless, Node.nameless_target]
  cases s.program.at? n.target with
  | none => exact .pure rfl
  | some callee =>
    simp only [Option.map_some, Node.nameless_kind, Node.nameless_id, Program.functionOf_nameless,
      Node.nameless_items]
    split
    · next hkind => exact s.collectMethodCall_lockstep n hkind
    · refine .read fun st st' hst => ?_
      rw [hst.view, View.bind_routine?_nameless]
      cases (s.program.functionOf callee.id).bind (st.view s).routine? with
      | none => exact .pure rfl
      | some r =>
        refine .bind (changeRoutine_lockstep r.node fun _ => rfl) fun _ => ?_
        exact s.addArguments_lockstep r.node r.params 0 n.items

/-- The same properties of an object literal are put off with and without names. -/
theorem deferredMembers_nameless (ids : List NodeId) :
    s.nameless.deferredMembers ids = s.deferredMembers ids := by
  induction ids with
  | nil => rfl
  | cons id ids ih =>
    simp only [deferredMembers, program_nameless, Program.node?_nameless, defers_nameless, ih]
    cases s.program.node? id with
    | none => rfl
    | some property =>
      simp only [Option.map_some, Node.nameless_expr, Node.nameless_isMember]
      cases property.expr with
      | none => rfl
      | some value =>
        dsimp only
        split
        · next h => rw [Node.name_of_isMember (Bool.and_eq_true_iff.mp h).1]
        · rfl

/-- A return is collected in lockstep. -/
theorem collectReturn_lockstep (n : Node) :
    InStep s.program (s.collectReturn n) (s.nameless.collectReturn n.nameless) := by
  refine .read fun st st' hst => ?_
  rw [hst.view, View.bind_routine?_nameless, Node.nameless_func, Node.nameless_expr]
  cases n.func.bind (st.view s).routine? with
  | none => exact .pure rfl
  | some r =>
    simp only [Option.map_some, Routine.nameless_ret]
    refine .bind (changeRoutine_lockstep r.node fun _ => rfl) fun _ => ?_
    cases n.expr with
    | none => exact .pure rfl
    | some value =>
      refine .bind (changeRoutine_lockstep r.node fun _ => rfl) fun _ => ?_
      simp only [program_nameless, Program.node?_nameless, deferredMembers_nameless]
      cases s.program.node? value with
      | none => exact .pure rfl
      | some expr =>
        simp only [Option.map_some, Node.nameless_kind, Node.nameless_items]
        split
        · exact .pure rfl
        · refine .bind (s.derived_lockstep "" "" value) fun l => ?_
          split
          · exact changeRoutine_lockstep r.node fun _ => rfl
          · split
            · exact .pure rfl
            · exact changeRoutine_lockstep r.node fun _ => rfl

/-- Every node is collected in lockstep. -/
theorem collectNode_lockstep (n : Node) :
    InStep s.program (s.collectNode n) (s.nameless.collectNode n.nameless) := by
  simp only [collectNode, Node.nameless_unsupported, Node.nameless_kind, Node.nameless_value,
    Node.nameless_id]
  split
  · refine State.withStore_lockstep (Store.note_lockstep _ ?_ _)
    rfl
  · split
    · exact s.collectDeclaration_lockstep n
    · exact s.collectParameter_lockstep n
    · exact s.collectLoop_lockstep n
    · exact s.collectLoop_lockstep n
    · exact s.collectAssignment_lockstep n
    · exact s.collectCall_lockstep n
    · exact s.collectReturn_lockstep n
    · exact (s.derived_lockstep "" "" n.id).map (f := fun _ => ()) (g := fun _ => ()) fun _ => rfl
    · exact (s.derived_lockstep "" "" n.id).map (f := fun _ => ()) (g := fun _ => ()) fun _ => rfl
    · exact .pure rfl

/-- All nodes are collected in lockstep. -/
theorem collectNodes_lockstep (ns : List Node) : InStep s.program (ns.forM s.collectNode)
    ((ns.map Node.nameless).forM s.nameless.collectNode) := by
  induction ns with
  | nil => exact .pure rfl
  | cons n ns ih => exact (s.collectNode_lockstep n).bind fun _ => ih

/-- Variables and functions have the names of their nodes, which are gone. -/
theorem initialState_alike (hp : s.program.Numbered) :
    s.initialState.Alike s.program s.nameless.initialState := by
  have hbound {n : Node} (h : n.isBound = true) : n.nameless.name = "" := by simp [Node.nameless, h]
  constructor
  case store => exact ⟨⟨rfl, rfl, rfl, rfl⟩, rfl, rfl, fun d hd => absurd hd (by simp [initialState])⟩
  case vars =>
    simp only [initialState, program_nameless, Program.declarations_nameless, List.map_filterMap]
    refine List.filterMap_congr fun id hid => ?_
    obtain ⟨n, hn, rfl⟩ := List.mem_map.mp hid
    obtain ⟨hmem, hdeclares⟩ := List.mem_filter.mp hn
    have hname : n.nameless.name = "" := by
      refine hbound ?_
      rcases (of_decide_eq_true hdeclares).1 with hkind | hkind <;> simp [Node.isBound, hkind]
    simp [hp.node?_of_mem hmem, hname, Variable.nameless]
  case routines =>
    simp only [initialState, program_nameless, Program.toList_nameless, List.filter_map, List.map_map]
    refine List.map_congr_left fun n hn => ?_
    have hkind : n.kind = .function := of_decide_eq_true (List.mem_filter.mp hn).2
    simp [Routine.nameless, hbound (show n.isBound = true by simp [Node.isBound, hkind])]

/-- The walk collects the same evidence. -/
theorem collect_alike (hp : s.program.Numbered) : s.collect.Alike s.program s.nameless.collect := by
  rw [collect, collect, program_nameless, Program.toList_nameless]
  exact (s.collectNodes_lockstep s.program.nodes.toList _ _ (s.initialState_alike hp)).2

end Subject

end LayoutInference
