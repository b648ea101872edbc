import Mathlib
import LayoutInference.Program

/-!
# What lowering does

The walk of `Tree.lower` counts nodes, gives them their children one by one and keeps its tables, all in
one state. `Tree.trace` says the same without a state: it lists what the walk does, event by event, with
every node as it is in the end. Walking a tree is following its trace, from any state
(`Tree.lower_eq`), so a program is what the trace of its tree leaves (`Program.ofTree_eq`).

The tables are read off the trace one by one. Nodes, identifiers and return statements are listed in the
order of their events; of the declarations of one name in one scope the first binds it and the others
become its aliases (`Lowering.lookup_bound_declareAll`, `Lowering.lookup_aliases_declareAll`).
-/

namespace LayoutInference

/-! ## Traces -/

/-- One thing that a walk does, with the node that it is done to or for. -/
inductive Event where
  | adds (n : Node)
  | declares (n : Node)
  | refers (n : Node)
  | returns (n : Node)

namespace Event

/-- What an event does to the state of the walk. -/
def apply : Event → Lowering → Lowering
  | .adds n, st => { st with nodes := st.nodes.push n }
  | .declares n, st => st.declare n
  | .refers n, st => st.refer n
  | .returns n, st => st.giveBack n

/-- The node that an event adds. -/
def added? : Event → Option Node
  | .adds n => some n
  | _ => none

/-- The node that an event declares. -/
def declared? : Event → Option Node
  | .declares n => some n
  | _ => none

/-- The identifier that an event leaves for later. -/
def referred? : Event → Option Node
  | .refers n => some n
  | _ => none

/-- The return statement that an event lists. -/
def returned? : Event → Option Node
  | .returns n => some n
  | _ => none

end Event

namespace Node

/-- The node with more children. -/
def putAll (n : Node) (children : List (Role × NodeId)) : Node :=
  children.foldl (fun n c => n.put c.1 c.2) n

/-- What happens when the walk comes to a node. -/
def entering (n : Node) : List Event :=
  if n.kind = .identifier then [.refers n] else if n.namesItself then [] else [.declares n]

/-- What happens before a child. -/
def approaching (n : Node) (role : Role) : List Event :=
  if role = .expr ∧ n.namesItself then [.declares n] else []

/-- What happens when the walk leaves a node. -/
def leaving (n : Node) : List Event := if n.kind = .ret then [.returns n] else []

end Node

namespace Tree

mutual

/-- The number of nodes of a tree. -/
def size : Tree → Nat
  | .node _ parts => 1 + partsSize parts

/-- The number of nodes of a list of children. -/
def partsSize : List (Role × Tree) → Nat
  | [] => 0
  | (_, t) :: parts => t.size + partsSize parts

end

/-- The roles and numbers of consecutive children, the first of which is numbered `id`. -/
def rootIds (id : NodeId) : List (Role × Tree) → List (Role × NodeId)
  | [] => []
  | (role, t) :: parts => (role, id) :: rootIds (id + t.size) parts

mutual

/-- What the walk does for a tree whose root is numbered `id`. -/
def trace (around : Surroundings) (id : NodeId) : Tree → List Event
  | .node label parts =>
    let n := (Node.bare around label id).putAll (rootIds (id + 1) parts)
    let inner := around.inner label id
    .adds n :: (n.entering ++ traceParts n inner inner (around.later label id) (id + 1) parts
      ++ n.leaving)

/-- What the walk does for the children of `n`, the first of which is numbered `id`. -/
def traceParts (n : Node) (inner next later : Surroundings) (id : NodeId) :
    List (Role × Tree) → List Event
  | [] => []
  | (role, t) :: parts =>
    n.approaching role ++ t.trace (if role = .item then next else inner) id
      ++ traceParts n inner (if role = .item then later else next) later (id + t.size) parts

end

end Tree

namespace Lowering

/-- Do what a list of events says. -/
def follow (st : Lowering) (events : List Event) : Lowering :=
  events.foldl (fun st e => e.apply st) st

/-- Put children in their roles. -/
def putAll (parent : NodeId) (children : List (Role × NodeId)) (st : Lowering) : Lowering :=
  children.foldl (fun st c => st.put parent c.1 c.2) st

/-- Bind the names of declarations in turn. -/
def declareAll (st : Lowering) (ns : List Node) : Lowering := ns.foldl (fun st n => st.declare n) st

end Lowering

/-! ## Children and their nodes -/

namespace Node

variable (n : Node) (children : List (Role × NodeId))

/-- Children change nothing else about a node. -/
theorem putAll_eq : ∃ target expr items, n.putAll children = { n with target, expr, items } := by
  induction children generalizing n with
  | nil => exact ⟨n.target, n.expr, n.items, rfl⟩
  | cons c children ih =>
    obtain ⟨target, expr, items, h⟩ := ih (n.put c.1 c.2)
    refine ⟨target, expr, items, ?_⟩
    rw [putAll, List.foldl_cons]
    refine h.trans ?_
    rcases c with ⟨role, child⟩
    cases role <;> rfl

@[simp] theorem putAll_toLabel : (n.putAll children).toLabel = n.toLabel := by
  obtain ⟨_, _, _, h⟩ := n.putAll_eq children
  rw [h]

@[simp] theorem putAll_id : (n.putAll children).id = n.id := by
  obtain ⟨_, _, _, h⟩ := n.putAll_eq children
  rw [h]

@[simp] theorem putAll_parent : (n.putAll children).parent = n.parent := by
  obtain ⟨_, _, _, h⟩ := n.putAll_eq children
  rw [h]

@[simp] theorem putAll_func : (n.putAll children).func = n.func := by
  obtain ⟨_, _, _, h⟩ := n.putAll_eq children
  rw [h]

@[simp] theorem putAll_scopes : (n.putAll children).scopes = n.scopes := by
  obtain ⟨_, _, _, h⟩ := n.putAll_eq children
  rw [h]

@[simp] theorem putAll_declaredIn : (n.putAll children).declaredIn = n.declaredIn := by
  obtain ⟨_, _, _, h⟩ := n.putAll_eq children
  rw [h]

@[simp] theorem putAll_namesItself : (n.putAll children).namesItself = n.namesItself := by
  simp [namesItself]

/-- Entering a node adds no node of its own. -/
@[simp] theorem added_entering : n.entering.filterMap Event.added? = [] := by
  rw [entering]
  split
  · rfl
  · split <;> rfl

/-- Approaching a part adds no node. -/
@[simp] theorem added_approaching (role : Role) :
    (n.approaching role).filterMap Event.added? = [] := by
  rw [approaching]
  split <;> rfl

/-- Leaving a node adds no node. -/
@[simp] theorem added_leaving : n.leaving.filterMap Event.added? = [] := by
  rw [leaving]
  split <;> rfl

end Node

namespace Lowering

variable {st : Lowering} {n : Node} {parent : NodeId} {role : Role} {child : NodeId}
  {children : List (Role × NodeId)} {events : List Event}

/-- A declaration is made under the node's name and scopes, whatever children it has been given. -/
@[simp] theorem declare_putAll : st.declare (n.putAll children) = st.declare n := by
  simp [declare]

@[simp] theorem follow_nil : st.follow [] = st := rfl

@[simp] theorem follow_cons (e : Event) : st.follow (e :: events) = (e.apply st).follow events := rfl

/-- Two runs of events are followed one after the other. -/
@[simp] theorem follow_append (more : List Event) :
    st.follow (events ++ more) = (st.follow events).follow more :=
  List.foldl_append

/-- Coming to a node does what its trace says. -/
theorem follow_entering (children : List (Role × NodeId)) :
    st.follow (n.putAll children).entering = st.enter n := by
  simp only [Node.entering, Node.putAll_toLabel, Node.putAll_namesItself, enter]
  split
  · simp [Event.apply, refer]
  · split
    · rfl
    · simp [Event.apply]

/-- The trace says what is done before a child. -/
theorem follow_approaching (children : List (Role × NodeId)) :
    st.follow ((n.putAll children).approaching role) = st.approach n role := by
  simp only [Node.approaching, Node.putAll_namesItself, approach]
  split
  · simp [Event.apply]
  · rfl

/-- Leaving a node does what its trace says. -/
theorem follow_leaving (children : List (Role × NodeId)) :
    st.follow (n.putAll children).leaving = st.leave n := by
  simp only [Node.leaving, Node.putAll_toLabel, leave]
  split
  · simp [Event.apply, giveBack]
  · rfl

/-! ## The tables -/

/-- The nodes are those added, in order. -/
theorem nodes_follow (st : Lowering) (events : List Event) :
    (st.follow events).nodes = st.nodes ++ (events.filterMap Event.added?).toArray := by
  induction events generalizing st with
  | nil => simp
  | cons e events ih =>
    rw [follow_cons, ih]
    cases e with
    | adds n => simp [Event.apply, Event.added?]
    | declares n =>
      have hnodes : (st.declare n).nodes = st.nodes := by
        rw [declare]
        split
        · rfl
        · split <;> rfl
      simp [List.filterMap_cons, Event.apply, Event.added?, hnodes]
    | refers n => simp [List.filterMap_cons, Event.apply, Event.added?, refer]
    | returns n => simp [List.filterMap_cons, Event.apply, Event.added?, giveBack]

/-- Binding a name leaves the lists of identifiers and returns alone. -/
theorem lists_declare (n : Node) (st : Lowering) :
    (st.declare n).pending = st.pending ∧ (st.declare n).returned = st.returned := by
  rw [declare]
  split
  · exact ⟨rfl, rfl⟩
  · split <;> exact ⟨rfl, rfl⟩

/-- The identifiers are listed in the order in which the walk comes to them. -/
theorem pending_follow (st : Lowering) (events : List Event) : (st.follow events).pending
    = st.pending ++ ((events.filterMap Event.referred?).map (·.id)).toArray := by
  induction events generalizing st with
  | nil => simp
  | cons e events ih =>
    rw [follow_cons, ih]
    cases e with
    | declares n => simp [List.filterMap_cons, Event.apply, Event.referred?, (lists_declare n st).1]
    | _ => simp [List.filterMap_cons, Event.apply, Event.referred?, refer, giveBack]

/-- The return statements are listed in the order in which the walk leaves them. -/
theorem returned_follow (st : Lowering) (events : List Event) : (st.follow events).returned
    = st.returned ++ ((events.filterMap Event.returned?).map fun n => (n.func.getD 0, n.id)).toArray := by
  induction events generalizing st with
  | nil => simp
  | cons e events ih =>
    rw [follow_cons, ih]
    cases e with
    | declares n => simp [List.filterMap_cons, Event.apply, Event.returned?, (lists_declare n st).2]
    | _ => simp [List.filterMap_cons, Event.apply, Event.returned?, refer, giveBack]

/-- What binding a name does depends on the bound names alone. -/
theorem declare_congr {st st' : Lowering} (hbound : st.bound = st'.bound)
    (haliases : st.aliases = st'.aliases) (n : Node) :
    (st.declare n).bound = (st'.declare n).bound ∧ (st.declare n).aliases = (st'.declare n).aliases := by
  rw [declare, declare, hbound]
  split
  · exact ⟨hbound, haliases⟩
  · split
    · exact ⟨rfl, by rw [haliases]⟩
    · exact ⟨rfl, haliases⟩

/-- The bound names and the aliases come from the declarations alone. -/
theorem names_follow {st st' : Lowering} (hbound : st.bound = st'.bound)
    (haliases : st.aliases = st'.aliases) (events : List Event) :
    (st.follow events).bound = (st'.declareAll (events.filterMap Event.declared?)).bound
      ∧ (st.follow events).aliases = (st'.declareAll (events.filterMap Event.declared?)).aliases := by
  induction events generalizing st st' with
  | nil => exact ⟨hbound, haliases⟩
  | cons e events ih =>
    rw [follow_cons]
    cases e with
    | declares n =>
      obtain ⟨hbound, haliases⟩ := declare_congr hbound haliases n
      exact ih hbound haliases
    | _ => exact ih hbound haliases

/-- A name is bound by the first declaration of it in the scope. -/
theorem lookup_bound_declareAll (ns : List Node) (scope : NodeId) (name : String) (st : Lowering) :
    (st.declareAll ns).bound.lookup (scope, name) = (st.bound.lookup (scope, name)).or
      ((ns.find? fun n => n.declaredIn = some scope ∧ n.name = name).map (·.id)) := by
  induction ns generalizing st with
  | nil => simp [declareAll]
  | cons n ns ih =>
    rw [declareAll, List.foldl_cons]
    refine (ih _).trans ?_
    rw [List.find?_cons, declare]
    by_cases hn : n.declaredIn = some scope ∧ n.name = name
    · obtain ⟨hscope, rfl⟩ := hn
      simp only [hscope, and_self, decide_true]
      -- A declaration of the name takes effect unless the name is bound.
      cases hbound : st.bound.lookup (scope, n.name) with
      | none => simp
      | some first => simp [hbound]
    · simp only [hn, decide_false]
      congr 1
      split
      · rfl
      · next scope' hscope =>
        split
        · rfl
        -- Any other declaration is entered under another key.
        · have hne : ¬((scope, name) == (scope', n.name)) := by
            intro h
            obtain ⟨rfl, rfl⟩ := Prod.mk.inj (eq_of_beq h)
            exact hn ⟨hscope, rfl⟩
          simp [List.lookup_cons, Bool.eq_false_iff.mpr hne]

/-- Only what is declared in a scope becomes an alias. -/
theorem lookup_aliases_declareAll_of_forall {ns : List Node} {id : NodeId}
    (h : ∀ n ∈ ns, n.id = id → n.declaredIn = none) (st : Lowering) :
    (st.declareAll ns).aliases.lookup id = st.aliases.lookup id := by
  induction ns generalizing st with
  | nil => rfl
  | cons n ns ih =>
    obtain ⟨hn, hns⟩ := List.forall_mem_cons.mp h
    rw [declareAll, List.foldl_cons]
    refine (ih hns _).trans ?_
    rw [declare]
    split
    · rfl
    · next scope hscope =>
      have hne : id ≠ n.id := fun hid => by simp [hn hid.symm] at hscope
      split
      · simp [List.lookup_cons, beq_eq_false_iff_ne.mpr hne]
      · rfl

/-- A declaration is an alias of the first one before it that has its name and scope. -/
theorem lookup_aliases_declareAll {before after : List Node} {n : Node} {scope : NodeId}
    (hscope : n.declaredIn = some scope) (hbefore : ∀ m ∈ before, m.id ≠ n.id)
    (hafter : ∀ m ∈ after, m.id ≠ n.id) :
    (({} : Lowering).declareAll (before ++ n :: after)).aliases.lookup n.id
      = (before.find? fun m => m.declaredIn = some scope ∧ m.name = n.name).map (·.id) := by
  have hsplit : ({} : Lowering).declareAll (before ++ n :: after)
      = ((({} : Lowering).declareAll before).declare n).declareAll after := List.foldl_append
  have hnone : (({} : Lowering).declareAll before).aliases.lookup n.id = none :=
    lookup_aliases_declareAll_of_forall (fun m hm hid => absurd hid (hbefore m hm)) _
  rw [hsplit, lookup_aliases_declareAll_of_forall fun m hm hid => absurd hid (hafter m hm)]
  have hbound := lookup_bound_declareAll before scope n.name {}
  rw [List.lookup_nil, Option.none_or] at hbound
  rw [declare, hscope]
  dsimp only
  rw [hbound]
  cases before.find? fun m => m.declaredIn = some scope ∧ m.name = n.name with
  | none => exact hnone
  | some first => simp

/-- Only an added node changes the nodes. -/
theorem nodes_enter (n : Node) (st : Lowering) : (st.enter n).nodes = st.nodes := by
  rw [← follow_entering [], nodes_follow, Node.added_entering, Array.append_empty]

/-- Approaching a part leaves the nodes as they are. -/
theorem nodes_approach (n : Node) (role : Role) (st : Lowering) :
    (st.approach n role).nodes = st.nodes := by
  rw [← follow_approaching [], nodes_follow, Node.added_approaching, Array.append_empty]

/-! ## Walking and following -/

/-- Changing an entry and adding one at the end are independent. -/
theorem modify_push {α : Type} {a : Array α} {x : α} {i : Nat} {f : α → α} (h : i < a.size) :
    (a.modify i f).push x = (a.push x).modify i f := by
  apply Array.ext
  · simp
  · intro j hj hj'
    simp only [Array.getElem_modify, Array.getElem_push, Array.size_modify]
    by_cases hlt : j < a.size
    · simp [hlt]
    · have hne : i ≠ j := by omega
      simp [hlt, hne]

/-- The entry at the end is the one that was added. -/
theorem modify_push_last {α : Type} {a : Array α} {x : α} {f : α → α} :
    (a.push x).modify a.size f = a.push (f x) := by
  apply Array.ext
  · simp
  · intro j hj hj'
    simp only [Array.getElem_modify, Array.getElem_push]
    by_cases hlt : j < a.size
    · simp [hlt, Nat.ne_of_gt hlt]
    · have heq : a.size = j := by
        rw [Array.size_push] at hj'
        omega
      simp [heq]

/-- Events do not mind whether a node that is there has a child more. -/
theorem apply_put (e : Event) (h : parent - 1 < st.nodes.size) :
    e.apply (st.put parent role child) = (e.apply st).put parent role child := by
  cases e with
  | adds n => simp [Event.apply, put, modify_push h]
  | declares n =>
    simp only [Event.apply, declare, put]
    split
    · rfl
    · split <;> rfl
  | refers n => rfl
  | returns n => rfl

/-- Following events never drops a node. -/
theorem size_le_size_follow (st : Lowering) (events : List Event) :
    st.nodes.size ≤ (st.follow events).nodes.size := by
  rw [nodes_follow, Array.size_append]
  exact Nat.le_add_right _ _

/-- A child put into a node that exists may as well be put there after the events. -/
theorem follow_put (h : parent - 1 < st.nodes.size) :
    (st.put parent role child).follow events = (st.follow events).put parent role child := by
  induction events generalizing st with
  | nil => rfl
  | cons e events ih =>
    rw [follow_cons, follow_cons, apply_put e h]
    exact ih (Nat.lt_of_lt_of_le h (size_le_size_follow st [e]))

/-- Children put into a node that exists may as well be put there after the events. -/
theorem follow_putAll (h : parent - 1 < st.nodes.size) :
    (st.putAll parent children).follow events = (st.follow events).putAll parent children := by
  induction children generalizing st with
  | nil => rfl
  | cons c children ih =>
    have hput : parent - 1 < (st.put parent c.1 c.2).nodes.size := by simpa [put] using h
    refine (ih hput).trans ?_
    rw [follow_put h]
    rfl

/-- A node that is added and then given children might as well be added with them. -/
theorem putAll_push (st : Lowering) (n : Node) (children : List (Role × NodeId))
    (hid : n.id = st.nodes.size + 1) :
    putAll n.id children { st with nodes := st.nodes.push n }
      = { st with nodes := st.nodes.push (n.putAll children) } := by
  induction children generalizing n with
  | nil => rfl
  | cons c children ih =>
    have hput : put n.id c.1 c.2 { st with nodes := st.nodes.push n }
        = { st with nodes := st.nodes.push (n.put c.1 c.2) } := by
      simp [put, hid, modify_push_last]
    have hsame : (n.put c.1 c.2).id = n.id := n.putAll_id [c]
    rw [putAll, List.foldl_cons, hput, Node.putAll, List.foldl_cons, ← hsame]
    exact ih _ (hsame.trans hid)

end Lowering

namespace Tree

mutual

/-- A trace adds each node of its tree. -/
theorem length_added_trace (around : Surroundings) (id : NodeId) :
    (t : Tree) → ((t.trace around id).filterMap Event.added?).length = t.size
  | .node label parts => by
    rw [trace, size]
    simp [Event.added?, length_added_traceParts, Nat.add_comm]

/-- The parts of a node add as many nodes as their trees have. -/
theorem length_added_traceParts (n : Node) (inner next later : Surroundings) (id : NodeId) :
    (parts : List (Role × Tree)) →
      ((traceParts n inner next later id parts).filterMap Event.added?).length = partsSize parts
  | [] => rfl
  | (role, t) :: parts => by
    rw [traceParts, partsSize]
    simp [length_added_trace, length_added_traceParts]

end

/-- Following a tree's trace adds as many nodes as the tree has. -/
theorem size_follow_trace (st : Lowering) (around : Surroundings) (id : NodeId) (t : Tree) :
    (st.follow (t.trace around id)).nodes.size = st.nodes.size + t.size := by
  simp [Lowering.nodes_follow, length_added_trace]

/-- Lowering a node adds it, enters it, lowers its parts and leaves it. -/
theorem lower_node (around : Surroundings) (label : Label) (parts : List (Role × Tree))
    (st : Lowering) :
    (node label parts).lower around st
      = let n := Node.bare around label (st.nodes.size + 1)
        let inner := around.inner label n.id
        let entered := Lowering.enter n { st with nodes := st.nodes.push n }
        (n.id, (lowerParts n inner inner (around.later label n.id) parts entered).2.leave n) := by
  rw [lower]
  rfl

/-- Lowering parts approaches the first of them, lowers it, puts it into the node and goes on. -/
theorem lowerParts_cons (n : Node) (inner next later : Surroundings) (role : Role) (t : Tree)
    (parts : List (Role × Tree)) (st : Lowering) :
    lowerParts n inner next later ((role, t) :: parts) st
      = let done := t.lower (if role = .item then next else inner) (st.approach n role)
        lowerParts n inner (if role = .item then later else next) later parts
          (done.2.put n.id role done.1) := by
  rw [lowerParts]
  rfl

mutual

/-- Walking a tree is following its trace. -/
theorem lower_eq (around : Surroundings) : (t : Tree) → (st : Lowering) →
    t.lower around st = (st.nodes.size + 1, st.follow (t.trace around (st.nodes.size + 1)))
  | .node label parts, st => by
    rw [lower_node, trace]
    dsimp only
    generalize hn : Node.bare around label (st.nodes.size + 1) = n
    have hid : n.id = st.nodes.size + 1 := by
      rw [← hn]
      rfl
    generalize hentered : Lowering.enter n { st with nodes := st.nodes.push n } = entered
    have hnodes : entered.nodes = st.nodes.push n := by rw [← hentered, Lowering.nodes_enter]
    have hlt : n.id - 1 < (st.nodes.push n).size := by
      rw [hid, Array.size_push]
      exact Nat.lt_succ_self _
    -- The children might as well have been there from the start.
    have hchildren (children : List (Role × NodeId)) : entered.putAll n.id children
        = Lowering.enter n { st with nodes := st.nodes.push (n.putAll children) } := by
      rw [← hentered, ← Lowering.follow_entering [], ← Lowering.follow_putAll hlt,
        Lowering.putAll_push st n children hid, Lowering.follow_entering]
    rw [← hnodes] at hlt
    rw [lowerParts_eq n (rootIds (st.nodes.size + 1 + 1) parts) _ _ _ parts entered hlt, hnodes,
      Array.size_push, ← Lowering.follow_putAll hlt, hchildren, hid]
    simp only [Lowering.follow_cons, Lowering.follow_append, Lowering.follow_entering,
      Lowering.follow_leaving, Event.apply]

/-- Lowering the parts of a node follows their trace and then puts all of their ids into the node. -/
theorem lowerParts_eq (n : Node) (children : List (Role × NodeId))
    (inner next later : Surroundings) : (parts : List (Role × Tree)) → (st : Lowering) →
    n.id - 1 < st.nodes.size →
    lowerParts n inner next later parts st = ((), (st.follow (traceParts (n.putAll children) inner next
      later (st.nodes.size + 1) parts)).putAll n.id (rootIds (st.nodes.size + 1) parts))
  | [], st, _ => by
    rw [lowerParts]
    rfl
  | (role, t) :: parts, st, hn => by
    rw [lowerParts_cons, lower_eq, Lowering.nodes_approach]
    -- The state after the first part was lowered, before it is put into the node.
    generalize hdone : (st.approach n role).follow
      (t.trace (if role = .item then next else inner) (st.nodes.size + 1)) = done
    have hsize : done.nodes.size = st.nodes.size + t.size := by
      rw [← hdone, size_follow_trace, Lowering.nodes_approach]
    have hput : n.id - 1 < done.nodes.size := by
      rw [hsize]
      exact Nat.lt_of_lt_of_le hn (Nat.le_add_right _ _)
    have hsizeput : (done.put n.id role (st.nodes.size + 1)).nodes.size = st.nodes.size + t.size := by
      rw [← hsize]
      exact Array.size_modify
    dsimp only
    rw [lowerParts_eq n children _ _ _ parts _ (by rwa [hsizeput, ← hsize]), hsizeput,
      Lowering.follow_put hput, traceParts, rootIds, Lowering.follow_append, Lowering.follow_append,
      Lowering.follow_approaching, hdone, Nat.add_right_comm]
    rfl

end

end Tree

/-- The state at the end of the walk over a whole tree. -/
def Tree.lowered (tree : Tree) : Lowering := ({} : Lowering).follow (tree.trace {} 1)

/-- A program is what the trace of its tree leaves. -/
theorem Program.ofTree_eq (source : Source) (tree : Tree) :
    ofTree source tree = ofLowering source tree.lowered := by
  have hlower := tree.lower_eq {} {}
  have hsize : ({} : Lowering).nodes.size + 1 = 1 := rfl
  rw [hsize] at hlower
  rw [ofTree, StateT.run, hlower, Tree.lowered]

end LayoutInference
