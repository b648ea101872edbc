import Mathlib
import LayoutInference.Inference.Collection
import LayoutInference.Proofs.Numbering

/-!
# What the walk over a program is made of

The walk that collects evidence is a long case distinction over the nodes of a program, in which a few
kinds of steps occur: marks, promises, writes, and layouts that are derived and put to use.
`Subject.Walks` names these steps. A class of computations that contains them, and is closed under
putting computations together, contains the whole walk (`Subject.Walks.collectNodes`), so what the walk
keeps is proved one kind of step at a time. `Subject.Steps` leaves out the mark for object literals,
which only values that a variable receives can give, `Subject.Gathers` also the notes, which only
nodes that are not supported leave, and `Subject.Observes` also what calls and returns say about a
function, its arguments apart.

Properties are written under names that stand in the program: in an object literal, behind a dot, or as
a text in brackets (`Program.propertyNames`).
-/

namespace LayoutInference

/-! ## The names of a program -/

/-- The name of the property in an access `_.name` or `_["name"]`. -/
def Node.accessed? (p : Program) (n : Node) : Option String :=
  match n.kind with
  | .propertyAccess => some n.name
  | .elementAccess => do
    let key ← p.at? n.expr
    if key.kind = .string then some key.value else none
  | _ => none

/-- The names of properties that a node holds. -/
def Node.propertyNames (p : Program) (n : Node) : List String :=
  if n.isMember then [n.name] else (n.accessed? p).toList

/-- The names of the members that an object literal gets from its properties, in order. -/
def Program.memberNames (p : Program) (properties : List NodeId) : List String :=
  ((properties.filterMap p.node?).filter (·.isMember)).map (·.name)

/-- The names of properties in a program. -/
def Program.propertyNames (p : Program) : List String :=
  p.nodes.toList.flatMap (Node.propertyNames p)

namespace Program

variable {p : Program} {id : NodeId} {n : Node}

@[simp] theorem memberNames_nil (p : Program) : p.memberNames [] = [] := rfl

/-- An id without a node gives no member. -/
theorem memberNames_cons_of_none {ids : List NodeId} (h : p.node? id = none) :
    p.memberNames (id :: ids) = p.memberNames ids := by
  simp [memberNames, h]

/-- A member gives its name, and the names of the others follow. -/
theorem memberNames_cons_of_isMember {ids : List NodeId} (hn : p.node? id = some n)
    (h : n.isMember = true) : p.memberNames (id :: ids) = n.name :: p.memberNames ids := by
  simp [memberNames, hn, h]

/-- What is not a member gives no name. -/
theorem memberNames_cons_of_not_isMember {ids : List NodeId} (hn : p.node? id = some n)
    (h : ¬ n.isMember = true) : p.memberNames (id :: ids) = p.memberNames ids := by
  simp [memberNames, hn, h]

/-- The names that a node holds are names of the program. -/
theorem mem_propertyNames {name : String} (hn : p.node? id = some n)
    (h : name ∈ n.propertyNames p) : name ∈ p.propertyNames :=
  List.mem_flatMap.mpr ⟨n, mem_nodes hn, h⟩

/-- The name of a member is a property name of the program. -/
theorem member_named (hn : p.node? id = some n) (h : n.isMember = true) :
    n.name ∈ p.propertyNames :=
  mem_propertyNames hn (by simp [Node.propertyNames, h])

/-- The name in an access is a property name of the program. -/
theorem accessed_named {name : String} (hn : p.node? id = some n) (h : n.accessed? p = some name) :
    name ∈ p.propertyNames := by
  have hmember : n.isMember = false := by
    by_contra hmember
    simp only [Node.isMember, Bool.not_eq_false, Bool.and_eq_true, decide_eq_true_eq] at hmember
    simp [Node.accessed?, hmember.1.1] at h
  exact mem_propertyNames hn (by simp [Node.propertyNames, hmember, h])

/-- The name behind a dot is a property name of the program. -/
theorem access_named (hn : p.node? id = some n) (h : n.kind = .propertyAccess) :
    n.name ∈ p.propertyNames :=
  accessed_named hn (by simp [Node.accessed?, h])

/-- A text in brackets is a property name of the program. -/
theorem key_named {key : Node} (hn : p.node? id = some n) (h : n.kind = .elementAccess)
    (hkey : p.at? n.expr = some key) (hstring : key.kind = .string) :
    key.value ∈ p.propertyNames :=
  accessed_named hn (by simp [Node.accessed?, h, hkey, hstring])

end Program

/-! ## Steps -/

namespace Subject

/-- Go on with the layout of a value, or without one if it must be put off. -/
def withLayout (s : Subject) (hint : String) (value : NodeId) (absent : StateM State Unit)
    (present : Layout → StateM State Unit) : StateM State Unit := do
  match ← s.derived hint value with
  | none => absent
  | some l => present l

/-- What follows a use of a layout follows in both of its branches. -/
theorem withLayout_bind (s : Subject) (hint : String) (value : NodeId) (absent : StateM State Unit)
    (present : Layout → StateM State Unit) (next : StateM State Unit) :
    (s.withLayout hint value absent present >>= fun _ => next) =
      s.withLayout hint value (absent >>= fun _ => next) fun l => present l >>= fun _ => next := by
  rw [withLayout, withLayout, bind_assoc]
  refine bind_congr fun answer => ?_
  cases answer <;> rfl

open State (changeVariable changeVariableWith changeRoutine) in
/-- The class `C` contains the steps of the walk that are about variables and arguments, the mark for
object literals apart, and is closed under putting computations together. -/
structure Observes (s : Subject) (C : {α : Type} → StateM State α → Prop) : Prop where
  pure {α : Type} (a : α) : C (Pure.pure a)
  bind {α β : Type} {m : StateM State α} {f : α → StateM State β} :
    C m → (∀ a, C (f a)) → C (m >>= f)
  /-- A step may depend on the state it starts in. -/
  read {β : Type} {f : State → StateM State β} : (∀ st, C (f st)) → C (get >>= f)
  derive (hint : String) (id : NodeId) : C (s.derived hint id)
  /-- Elements are pushed or popped. -/
  growing (decl : NodeId) : C (changeVariable decl fun v => { v with growing := true })
  /-- Elements are written under computed keys. -/
  dictionary (decl : NodeId) : C (changeVariable decl (·.makeDictionary))
  /-- A loop assigns the keys of an object. -/
  key (decl : NodeId) : C (changeVariable decl (·.addCandidate .string))
  /-- Promises about properties name properties of the program. -/
  promise (decl : NodeId) (q : Promise)
    (hq : q.property ≠ "" → q.property ∈ s.program.propertyNames) :
    C (changeVariable decl (·.addPromise q))
  value (decl : NodeId) (hint : String) (id : NodeId) : C (s.withLayout hint id
    (changeVariable decl (·.addPromise { node := id }))
    fun l => changeVariable decl (·.addCandidate l))
  keyed (decl id : NodeId) : C (s.withLayout "" id
    (changeVariable decl (·.addPromise { node := id, use := .dictOf }))
    fun l => changeVariableWith decl fun v registry =>
      (v.addCandidate (registry.dictionary l).1, (registry.dictionary l).2))
  element (decl id : NodeId) : C (s.withLayout "" id
    (changeVariable decl (·.addPromise { node := id, use := .indexed }))
    fun l => changeVariableWith decl fun v registry =>
      ((v.refineElements l registry).1.1, (v.refineElements l registry).2))
  pushed (decl id : NodeId) : C (s.withLayout "" id
    (changeVariable decl (·.addPromise { node := id, use := .arrayOf }))
    fun l => changeVariableWith decl fun v registry => v.addPushed l registry)
  self (decl : NodeId) {name : String} (hname : name ∈ s.program.propertyNames) :
    C (changeVariable decl (·.writeSelf name))
  property (decl : NodeId) {name : String} (hname : name ∈ s.program.propertyNames) (id : NodeId) :
    C (s.withLayout name id
      (changeVariable decl fun v => (v.reserve name).addPromise { node := id, property := name })
      fun l => changeVariable decl (·.write name l))
  propertyPushed (decl : NodeId) {name : String} (hname : name ∈ s.program.propertyNames)
    (id : NodeId) : C (s.withLayout "" id
      (changeVariable decl fun v =>
        (v.reserve name).addPromise { node := id, use := .arrayOf, property := name })
      fun l => changeVariableWith decl fun v registry =>
        (v.write name (registry.dynamicArray l).1, (registry.dynamicArray l).2))
  argument (fn : NodeId) (index : Nat) (hint : String) (id : NodeId) : C (s.withLayout hint id
    (changeRoutine fn <| changeSlot index fun slot =>
      { slot with promises := slot.promises ++ [{ node := id }] })
    fun l => changeRoutine fn <| changeSlot index fun slot =>
      if slot.layout = .missing && !l.isFallback then { slot with layout := l } else slot)

open State (changeRoutine) in
/-- The class `C` contains the steps of the walk over the program, notes and the mark for object
literals apart, and is closed under putting computations together. -/
structure Gathers (s : Subject) (C : {α : Type} → StateM State α → Prop) : Prop extends
    s.Observes C where
  /-- A function is called or returns. -/
  mark (fn : NodeId) {change : Routine → Routine}
    (hchange : ∀ r, ∃ calls hasReturn valued, change r = { r with calls, hasReturn, valued }) :
    C (changeRoutine fn change)
  /-- A value is returned; `settled` says whether the function has one already. -/
  returned (fn id : NodeId) (settled : Prop) [Decidable settled] {retProps : List Promise}
    (hretProps : ∀ q ∈ retProps, q.property ∈ s.program.propertyNames) : C (do
      let l := (← s.derived "" id).getD .missing
      if l.isFallback then
        changeRoutine fn fun r => { r with retPromises := r.retPromises ++ [{ node := id }] }
      else if settled then Pure.pure ()
      else changeRoutine fn fun r => { r with ret := l, retProps })

/-- The class `C` contains the steps of the walk over the program, the mark for object literals apart,
and is closed under putting computations together. -/
structure Steps (s : Subject) (C : {α : Type} → StateM State α → Prop) : Prop extends
    s.Gathers C where
  note (notice : Notice) (node : Option NodeId) : C (State.withStore (Store.note s.program notice node))

/-- The class `C` contains the steps of the walk over the program and is closed under putting
computations together. -/
structure Walks (s : Subject) (C : {α : Type} → StateM State α → Prop) : Prop extends
    s.Steps C where
  /-- An object literal is assigned. -/
  object (decl : NodeId) : C (State.changeVariable decl fun v => { v with objectLiteral := true })

namespace Observes

variable {s : Subject} {C : {α : Type} → StateM State α → Prop} (h : s.Observes C)

include h

/-- To look up a variable is a step. -/
theorem variableOf? (id : NodeId) : C (s.variableOf? id) := h.read fun _ => h.pure _

/-- To look up the owner of an expression is a step. -/
theorem owner? (id : Option NodeId) : C (s.owner? id) := by
  rw [Subject.owner?]
  cases s.program.at? id with
  | none => exact h.pure _
  | some n =>
    simp only
    split
    · exact h.variableOf? n.id
    · exact h.pure _

/-- To ask whether a value is read from the variable itself is a step. -/
theorem readsOwner (decl : NodeId) (value : Option NodeId) : C (s.readsOwner decl value) :=
  h.bind (h.owner? value) fun _ => h.pure _

/-- The promises for the members of an object literal are made in steps. -/
theorem promiseMembers (decl : NodeId) (ids : List NodeId) : C (s.promiseMembers decl ids) := by
  induction ids with
  | nil => exact h.pure ()
  | cons id ids ih =>
    rw [Subject.promiseMembers]
    cases hn : s.program.node? id with
    | none => exact ih
    | some property =>
      cases hexpr : property.expr with
      | none =>
        simp only [hexpr]
        exact ih
      | some value =>
        simp only [hexpr]
        split
        · next hmember =>
          refine h.bind (h.readsOwner decl (some value)) fun reads => ?_
          repeat' split
          · exact ih
          · exact h.bind (h.promise decl _ fun _ => Program.member_named hn hmember) fun _ => ih
          · exact ih
        · exact ih

/-- A value that a variable receives, if an object literal may give it the mark. -/
theorem addValue (v : Variable) (value : NodeId)
    (hobject : ∀ n, s.program.node? value = some n → n.kind = .objectLiteral →
      C (State.changeVariable v.decl fun v => { v with objectLiteral := true })) :
    C (s.addValue v value) := by
  rw [Subject.addValue]
  cases hn : s.program.node? value with
  | none => exact h.pure ()
  | some n =>
    simp only
    split
    · exact h.pure ()
    · split
      · next hkind =>
        refine h.bind (hobject n hn hkind) fun _ => ?_
        refine h.bind (h.promiseMembers v.decl n.items) fun _ => ?_
        exact h.value v.decl v.name value
      · exact h.value v.decl v.name value

/-- What a loop says about the variable of its head is noted in steps. -/
theorem addLoopValue (v : Variable) (loop : Node) : C (addLoopValue v loop) := by
  rw [Subject.addLoopValue]
  split
  · exact h.key v.decl
  · cases loop.expr with
    | none => exact h.pure ()
    | some source => exact h.promise v.decl _ fun hne => absurd rfl hne

/-- A loop is collected in steps. -/
theorem collectLoop (n : Node) : C (s.collectLoop n) := by
  refine h.bind (h.owner? n.target) fun found => ?_
  cases found with
  | none => exact h.pure ()
  | some v => exact h.addLoopValue v n

/-- A value written under a computed key is noted in steps. -/
theorem addKeyed (v : Variable) (value : NodeId) : C (s.addKeyed v value) :=
  h.bind (h.dictionary v.decl) fun _ => h.keyed v.decl value

/-- A property written under a name of the program is noted in steps. -/
theorem addProperty (v : Variable) {name : String} (hname : name ∈ s.program.propertyNames)
    (value : NodeId) : C (s.addProperty v name value) := by
  rw [Subject.addProperty]
  split
  · exact h.addKeyed v value
  · refine h.bind (h.readsOwner v.decl (some value)) fun reads => ?_
    split
    · exact h.self v.decl hname
    · exact h.property v.decl hname value

/-- An assignment, if one to a variable may give it the value. -/
theorem collectAssignment (n : Node)
    (hvalue : n.value = "=" → ∀ target, s.program.at? n.target = some target →
      target.kind = .identifier → ∀ value, n.expr = some value → C (do
        match ← s.variableOf? target.id with
        | none => Pure.pure ()
        | some v => s.addValue v value)) : C (s.collectAssignment n) := by
  rw [Subject.collectAssignment]
  split
  · exact h.pure ()
  · next hplain =>
    cases htarget : s.program.at? n.target with
    | none => exact h.pure ()
    | some target =>
      obtain ⟨id, -, hid⟩ := Option.bind_eq_some_iff.mp htarget
      cases hexpr : n.expr with
      | none => exact h.pure ()
      | some value =>
        simp only
        split
        · next hkind => exact hvalue (not_not.mp hplain) target htarget hkind value hexpr
        · next hkind =>
          refine h.bind (h.owner? target.target) fun found => ?_
          cases found with
          | none => exact h.pure ()
          | some v => exact h.addProperty v (Program.access_named hid hkind) value
        · next hkind =>
          refine h.bind (h.owner? target.target) fun found => ?_
          cases found with
          | none => exact h.pure ()
          | some v =>
            cases hkey : s.program.at? target.expr with
            | none => exact h.pure ()
            | some key =>
              simp only
              split
              · next hstring =>
                exact h.addProperty v (Program.key_named hid hkind hkey hstring) value
              · split
                · exact h.element v.decl value
                · exact h.addKeyed v value
        · exact h.pure ()

/-- An element pushed to a variable is noted in steps. -/
theorem addPush (v : Variable) (argument : Option NodeId) : C (s.addPush v argument) := by
  refine h.bind (h.growing v.decl) fun _ => ?_
  cases argument with
  | none => exact h.pure ()
  | some value => exact h.pushed v.decl value

/-- An element pushed to a property is noted in steps. -/
theorem addPropertyPush {receiver : Node} (hname : receiver.name ∈ s.program.propertyNames)
    (value : NodeId) : C (s.addPropertyPush receiver value) := by
  refine h.bind (h.owner? receiver.target) fun found => ?_
  cases found with
  | none => exact h.pure ()
  | some v =>
    simp only
    split
    · exact h.pure ()
    · exact h.propertyPushed v.decl hname value

/-- A method call is collected in steps. -/
theorem collectMethodCall (n callee : Node) : C (s.collectMethodCall n callee) := by
  rw [Subject.collectMethodCall]
  split
  case h_1 | h_2 =>
    refine h.bind (h.owner? callee.target) fun found => ?_
    cases found with
    | some v => exact h.addPush v n.items.head?
    | none =>
      cases htarget : s.program.at? callee.target with
      | none => exact h.pure ()
      | some receiver =>
        obtain ⟨id, -, hid⟩ := Option.bind_eq_some_iff.mp htarget
        cases n.items.head? with
        | none => exact h.pure ()
        | some value =>
          simp only
          split
          · next hkind => exact h.addPropertyPush (Program.access_named hid hkind) value
          · exact h.pure ()
  case h_3 | h_4 =>
    refine h.bind (h.owner? callee.target) fun found => ?_
    cases found with
    | some v => exact h.growing v.decl
    | none => exact h.pure ()
  case h_5 => exact h.pure ()

/-- The arguments of a call are noted in steps. -/
theorem addArguments (fn : NodeId) (params : List NodeId) (index : Nat) (arguments : List NodeId) :
    C (s.addArguments fn params index arguments) := by
  induction arguments generalizing index with
  | nil => exact h.pure ()
  | cons argument rest ih =>
    rw [Subject.addArguments]
    cases params[index]? with
    | none => exact h.pure ()
    | some param =>
      show C (s.withLayout _ argument (_ >>= fun _ => s.addArguments fn params (index + 1) rest)
        fun _ => _ >>= fun _ => s.addArguments fn params (index + 1) rest)
      rw [← withLayout_bind]
      exact h.bind (h.argument fn index _ argument) fun _ => ih (index + 1)

variable (hobject : ∀ decl, C (State.changeVariable decl fun v => { v with objectLiteral := true }))

include hobject

/-- A value that a variable receives is noted in steps. -/
theorem receives (v : Variable) (value : NodeId) : C (s.addValue v value) :=
  h.addValue v value fun _ _ _ => hobject v.decl

/-- A declaration is collected in steps. -/
theorem collectDeclaration (n : Node) : C (s.collectDeclaration n) := by
  refine h.bind (h.variableOf? n.id) fun found => ?_
  cases found with
  | none => exact h.pure ()
  | some v =>
    cases s.program.at? n.parent with
    | none =>
      cases n.expr with
      | none => exact h.pure ()
      | some value => exact h.receives hobject v value
    | some parent =>
      simp only
      split
      · exact h.addLoopValue v parent
      · cases n.expr with
        | none => exact h.pure ()
        | some value => exact h.receives hobject v value

/-- A parameter is collected in steps. -/
theorem collectParameter (n : Node) : C (s.collectParameter n) := by
  refine h.read fun st => ?_
  cases st.vars.find? (·.decl = n.id) with
  | none => exact h.pure ()
  | some v =>
    cases n.expr with
    | none => exact h.pure ()
    | some value => exact h.receives hobject v value

/-- An assignment, which may give a variable an object literal. -/
theorem receivesAssignment (n : Node) : C (s.collectAssignment n) := by
  refine h.collectAssignment n fun _ target _ _ value _ => ?_
  refine h.bind (h.variableOf? target.id) fun found => ?_
  cases found with
  | none => exact h.pure ()
  | some v => exact h.receives hobject v value

/-- The class contains what is recorded for a node that is supported, if it contains what calls and
returns say. -/
theorem collectNode {n : Node} (hn : n.unsupported = false)
    (hcall : n.kind = .call → C (s.collectCall n)) (hreturn : n.kind = .ret → C (s.collectReturn n)) :
    C (s.collectNode n) := by
  rw [Subject.collectNode, hn]
  simp only [Bool.false_eq_true, if_false]
  split
  · exact h.collectDeclaration hobject n
  · exact h.collectParameter hobject n
  · exact h.collectLoop n
  · exact h.collectLoop n
  · exact h.receivesAssignment hobject n
  · next hkind => exact hcall hkind
  · next hkind => exact hreturn hkind
  · exact h.bind (h.derive "" n.id) fun _ => h.pure ()
  · exact h.bind (h.derive "" n.id) fun _ => h.pure ()
  · exact h.pure ()

end Observes

namespace Gathers

variable {s : Subject} {C : {α : Type} → StateM State α → Prop} (h : s.Gathers C)

include h

/-- A call is collected in steps. -/
theorem collectCall (n : Node) : C (s.collectCall n) := by
  rw [Subject.collectCall]
  cases s.program.at? n.target with
  | none => exact h.pure ()
  | some callee =>
    simp only
    split
    · exact h.collectMethodCall n callee
    · refine h.read fun st => ?_
      cases (s.program.functionOf callee.id).bind (st.view s).routine? with
      | none => exact h.pure ()
      | some r =>
        refine h.bind (h.mark r.node fun r => ⟨r.calls + 1, r.hasReturn, r.valued, rfl⟩) fun _ => ?_
        exact h.addArguments r.node r.params 0 n.items

omit h in
/-- The properties put off in an object literal have names of the program. -/
theorem deferredMembers_named (ids : List NodeId) :
    ∀ q ∈ s.deferredMembers ids, q.property ∈ s.program.propertyNames := by
  induction ids with
  | nil => simp [deferredMembers]
  | cons id ids ih =>
    rw [deferredMembers]
    cases hn : s.program.node? id with
    | none => exact ih
    | some property =>
      simp only
      cases property.expr with
      | none => exact ih
      | some value =>
        simp only
        split
        · next hdeferred =>
          obtain ⟨hmember, -⟩ := Bool.and_eq_true_iff.mp hdeferred
          exact List.forall_mem_cons.mpr ⟨Program.member_named hn hmember, ih⟩
        · exact ih

/-- A return is collected in steps. -/
theorem collectReturn (n : Node) : C (s.collectReturn n) := by
  refine h.read fun st => ?_
  cases n.func.bind (st.view s).routine? with
  | none => exact h.pure ()
  | some r =>
    refine h.bind (h.mark r.node fun r => ⟨r.calls, true, r.valued, rfl⟩) fun _ => ?_
    cases n.expr with
    | none => exact h.pure ()
    | some value =>
      refine h.bind (h.mark r.node fun r => ⟨r.calls, r.hasReturn, true, rfl⟩) fun _ => ?_
      cases s.program.node? value with
      | none => exact h.pure ()
      | some expr =>
        simp only
        split
        · exact h.pure ()
        · refine h.returned r.node value (r.ret ≠ .missing) ?_
          split
          · exact deferredMembers_named expr.items
          · simp

/-- The class contains what is recorded for a node that is supported. -/
theorem collectSupported
    (hobject : ∀ decl, C (State.changeVariable decl fun v => { v with objectLiteral := true }))
    {n : Node} (hn : n.unsupported = false) : C (s.collectNode n) :=
  h.collectNode hobject hn (fun _ => h.collectCall n) fun _ => h.collectReturn n

end Gathers

namespace Walks

variable {s : Subject} {C : {α : Type} → StateM State α → Prop} (h : s.Walks C)

include h

/-- An assignment is collected in steps. -/
theorem collectAssignment (n : Node) : C (s.collectAssignment n) := h.receivesAssignment h.object n

/-- Every node is collected in steps. -/
theorem collectNode (n : Node) : C (s.collectNode n) := by
  cases hn : n.unsupported with
  | false => exact h.collectSupported h.object hn
  | true =>
    rw [Subject.collectNode, hn]
    exact h.note _ _

/-- The class contains the walk over any nodes. -/
theorem collectNodes (ns : List Node) : C (ns.forM s.collectNode) := by
  induction ns with
  | nil => exact h.pure ()
  | cons n ns ih => exact h.bind (h.collectNode n) fun _ => ih

/-- The computations of two classes at once. -/
theorem and {C' : {α : Type} → StateM State α → Prop} (h' : s.Walks C') :
    s.Walks fun {α : Type} (m : StateM State α) => C m ∧ C' m where
  pure a := ⟨h.pure a, h'.pure a⟩
  bind hm hf := ⟨h.bind hm.1 fun a => (hf a).1, h'.bind hm.2 fun a => (hf a).2⟩
  read hf := ⟨h.read fun st => (hf st).1, h'.read fun st => (hf st).2⟩
  note notice node := ⟨h.note notice node, h'.note notice node⟩
  derive hint id := ⟨h.derive hint id, h'.derive hint id⟩
  growing d := ⟨h.growing d, h'.growing d⟩
  dictionary d := ⟨h.dictionary d, h'.dictionary d⟩
  key d := ⟨h.key d, h'.key d⟩
  promise d q hq := ⟨h.promise d q hq, h'.promise d q hq⟩
  value d hint id := ⟨h.value d hint id, h'.value d hint id⟩
  keyed d id := ⟨h.keyed d id, h'.keyed d id⟩
  element d id := ⟨h.element d id, h'.element d id⟩
  pushed d id := ⟨h.pushed d id, h'.pushed d id⟩
  self d _ hname := ⟨h.self d hname, h'.self d hname⟩
  property d _ hname id := ⟨h.property d hname id, h'.property d hname id⟩
  propertyPushed d _ hname id := ⟨h.propertyPushed d hname id, h'.propertyPushed d hname id⟩
  mark fn _ hchange := ⟨h.mark fn hchange, h'.mark fn hchange⟩
  argument fn index hint id := ⟨h.argument fn index hint id, h'.argument fn index hint id⟩
  returned fn id settled _ _ hretProps :=
    ⟨h.returned fn id settled hretProps, h'.returned fn id settled hretProps⟩
  object d := ⟨h.object d, h'.object d⟩

end Walks

end Subject

end LayoutInference
