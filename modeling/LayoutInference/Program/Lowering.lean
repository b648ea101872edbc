import LayoutInference.Program.Node

/-!
# Lowering

A tree becomes numbered nodes in one walk, `Tree.lower`. A node is added, and gets the next number, when
the walk comes to it; its children are put in their roles as they are done. On the way the walk binds the
names that are declared, each in its scope. Identifiers are left for later, since a name may be used
before it is declared, and return statements are listed under their functions.

When the walk is over, `Lowering.link` takes the identifiers in turn to what they name.
-/

namespace LayoutInference

/-- What a walk has built so far. -/
structure Lowering where
  /-- The nodes, node `i` at index `i - 1`. -/
  nodes : Array Node := #[]
  /-- The names that are bound in each scope, with the declarations that bind them. -/
  bound : List ((NodeId × String) × NodeId) := []
  /-- The declarations of names that were bound before, with the declarations that bind them. -/
  aliases : List (NodeId × NodeId) := []
  /-- The identifiers in the order of the walk. -/
  pending : Array NodeId := #[]
  /-- The return statements as the walk leaves them, each under its function; 0 stands for the outside of
  all functions. -/
  returned : Array (NodeId × NodeId) := #[]

/-- A node without children. -/
def Node.bare (around : Surroundings) (label : Label) (id : NodeId) : Node :=
  { label with
    id
    parent := around.parent
    func := around.func
    target := none
    expr := none
    items := []
    scopes := around.scopes
    declaredIn := label.declaresIn around id }

namespace Lowering

/-- Add a node, which gets the next number. -/
def add (around : Surroundings) (label : Label) : StateM Lowering Node := fun st =>
  let n := Node.bare around label (st.nodes.size + 1)
  (n, { st with nodes := st.nodes.push n })

/-- Bind the name that a node declares. If the name is bound in the scope already, the node becomes an
alias of the declaration that binds it. -/
def declare (n : Node) (st : Lowering) : Lowering :=
  match n.declaredIn with
  | none => st
  | some scope =>
    match st.bound.lookup (scope, n.name) with
    | some first => { st with aliases := (n.id, first) :: st.aliases }
    | none => { st with bound := ((scope, n.name), n.id) :: st.bound }

/-- Leave an identifier for later. -/
def refer (n : Node) (st : Lowering) : Lowering := { st with pending := st.pending.push n.id }

/-- List a return statement under its function. -/
def giveBack (n : Node) (st : Lowering) : Lowering :=
  { st with returned := st.returned.push (n.func.getD 0, n.id) }

/-- What is done when the walk comes to a node: all declarations but functions that name themselves bind
their names, and identifiers are noted. -/
def enter (n : Node) (st : Lowering) : Lowering :=
  if n.kind = .identifier then st.refer n else if n.namesItself then st else st.declare n

/-- What is done before a child: a function that names itself does so between its parameters and its
body. -/
def approach (n : Node) (role : Role) (st : Lowering) : Lowering :=
  if role = .expr ∧ n.namesItself then st.declare n else st

/-- What is done when the walk leaves a node. -/
def leave (n : Node) (st : Lowering) : Lowering := if n.kind = .ret then st.giveBack n else st

/-- Put a child in its role. -/
def put (parent : NodeId) (role : Role) (child : NodeId) (st : Lowering) : Lowering :=
  { st with nodes := st.nodes.modify (parent - 1) (·.put role child) }

end Lowering

namespace Tree

mutual

/-- Lower a tree; the answer is the number of its root. -/
def lower (around : Surroundings) : Tree → StateM Lowering NodeId
  | .node label parts => do
    let n ← Lowering.add around label
    modify (·.enter n)
    let inner := around.inner label n.id
    lowerParts n inner inner (around.later label n.id) parts
    modify (·.leave n)
    return n.id

/-- Lower the children of a node in turn. The next item is surrounded by `next`, those after it by
`later`, and all other children by `inner`. -/
def lowerParts (n : Node) (inner next later : Surroundings) :
    List (Role × Tree) → StateM Lowering Unit
  | [] => pure ()
  | (role, t) :: parts => do
    modify (·.approach n role)
    let child ← t.lower (if role = .item then next else inner)
    modify (·.put n.id role child)
    lowerParts n inner (if role = .item then later else next) later parts

end

end Tree

/-! ## Linking -/

/-- What the nodes of a program are linked to. -/
structure Links where
  /-- The declarations that identifiers and aliases belong to. -/
  decls : List (NodeId × NodeId)
  /-- The identifiers in order, each under its declaration. -/
  referred : Array (NodeId × NodeId) := #[]

namespace Lowering

/-- The declaration of a name in the innermost scope of a chain that binds it. -/
def lookup (st : Lowering) (scopes : List NodeId) (name : String) : Option NodeId :=
  scopes.findSome? fun scope => st.bound.lookup (scope, name)

/-- Link an identifier to its declaration, if anything declares its name. -/
def link (st : Lowering) (links : Links) (id : NodeId) : Links :=
  match (st.nodes[id - 1]?).bind fun n => st.lookup n.scopes n.name with
  | none => links
  | some found =>
    let decl := (links.decls.lookup found).getD found
    { decls := (id, decl) :: links.decls, referred := links.referred.push (decl, id) }

/-- The links of all identifiers. -/
def links (st : Lowering) : Links := st.pending.foldl st.link { decls := st.aliases }

end Lowering

/-- The declaration that a node belongs to: what an identifier is linked to, if anything; for a
declaration that is no alias the node itself. -/
def Node.declarationIn (n : Node) (decls : List (NodeId × NodeId)) : Option NodeId :=
  match n.kind with
  | .identifier => decls.lookup n.id
  | .variable | .parameter | .function => some ((decls.lookup n.id).getD n.id)
  | _ => none

end LayoutInference
