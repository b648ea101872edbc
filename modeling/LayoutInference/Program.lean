import LayoutInference.Program.Lowering
import LayoutInference.Source

/-!
# Programs

A program is a source file with its numbered nodes, every identifier linked to its declaration. Links are
made when all nodes are there, so a name is visible in the whole of the scope that declares it, before
and after the declaration.

* `Program.ofScript` builds a program.
* `Program.declaration`, `Program.references` and `Program.declarations` relate names to what they
  declare; a second declaration of a name in one scope belongs to the first.
* `Program.functionOf`, `Program.returns` and `Program.visibleNames` answer what the analysis asks
  about callees, functions and scopes.
-/

namespace LayoutInference

/-- A source file with its numbered nodes, node `i` at index `i - 1`. -/
structure Program where
  source : Source
  nodes : Array Node
  /-- The names that are bound in each scope, with the declarations that bind them. -/
  bound : List ((NodeId × String) × NodeId)
  /-- The identifiers in source order, each under its declaration. -/
  referred : Array (NodeId × NodeId)
  /-- The return statements, each under its function; 0 stands for the outside of all functions. -/
  returned : Array (NodeId × NodeId)

/-- Why a script has no program. -/
inductive Program.Fault where
  /-- A `switch` clause without statements has no end. -/
  | endlessClause
deriving DecidableEq, Repr

/-- Put a name into a strictly ascending list of names, which serves as an ordered set: a name that is
there already is not put in again. Names are compared by their code points, which orders them as their
bytes do. -/
def insertName (name : String) : List String → List String
  | [] => [name]
  | other :: rest =>
    if name < other then name :: other :: rest
    else if name = other then other :: rest
    else other :: insertName name rest

namespace Program

/-- The program of a finished walk. -/
def ofLowering (source : Source) (st : Lowering) : Program :=
  let links := st.links
  { source
    nodes := st.nodes.map fun n => { n with decl := n.declarationIn links.decls }
    bound := st.bound
    referred := links.referred
    returned := st.returned }

/-- The program of a tree. -/
def ofTree (source : Source) (tree : Tree) : Program :=
  ofLowering source ((tree.lower {}).run {}).2

/-- The program of a script. -/
def ofScript (source : Source) (script : Script) : Except Fault Program :=
  let program := ofTree source script.toTree
  if program.nodes.any (·.endless) then .error .endlessClause else .ok program

/-- The node with a number. -/
def node? (p : Program) (id : NodeId) : Option Node :=
  if id = 0 then none else p.nodes[id - 1]?

/-- The node that a reference points at, if it points at one. -/
def at? (p : Program) (id : Option NodeId) : Option Node := id.bind p.node?

/-- The children of a node in source order. -/
def children (p : Program) (id : NodeId) : List NodeId :=
  ((p.node? id).map Node.children).getD []

/-- The declaration that a node belongs to; none for an identifier that nothing declares and for
nodes that are neither identifiers nor declarations. -/
def declaration (p : Program) (id : NodeId) : Option NodeId :=
  (p.node? id).bind (·.decl)

/-- The variables and parameters that are the first of their name, in source order. -/
def declarations (p : Program) : List NodeId :=
  (p.nodes.toList.filter fun n =>
    (n.kind = .variable ∨ n.kind = .parameter) ∧ !n.unsupported ∧ n.decl = some n.id).map (·.id)

/-- The identifiers that belong to the declaration of `id`, in source order. -/
def references (p : Program) (id : NodeId) : List NodeId :=
  match p.declaration id with
  | none => []
  | some decl => (p.referred.toList.filter (·.1 = decl)).map (·.2)

/-- The function that a callee denotes: a function itself, or an identifier declared as a function
or as a variable that starts out as one. -/
def functionOf (p : Program) (callee : NodeId) : Option NodeId := do
  let n ← p.node? callee
  match n.kind with
  | .function => some n.id
  | .identifier =>
    let decl ← p.at? n.decl
    match decl.kind with
    | .function => some decl.id
    | .variable =>
      let initial ← p.at? decl.expr
      if initial.kind = .function then some initial.id else none
    | _ => none
  | _ => none

/-- The return statements of a function, those of functions inside it excluded. The outside of all
functions is 0. -/
def returns (p : Program) (fn : NodeId) : List NodeId :=
  (p.returned.toList.filter (·.1 = fn)).map (·.2)

/-- The names that are bound in a scope. -/
def namesIn (p : Program) (scope : NodeId) : List String :=
  (p.bound.filter (·.1.1 = scope)).map (·.1.2)

/-- The names bound in the scopes that are open at a node, in ascending order. -/
def visibleNames (p : Program) (id : NodeId) : List String :=
  match p.node? id with
  | none => []
  | some n => (n.scopes.flatMap p.namesIn).foldr insertName []

/-- The place of a node's first byte. -/
def position (p : Program) (id : NodeId) : Position :=
  match p.node? id with
  | none => {}
  | some n => p.source.position n.span.start

/-- The source text of a node, as bytes. -/
def text (p : Program) (id : NodeId) : List UInt8 :=
  match p.node? id with
  | none => []
  | some n => p.source.slice n.span

end Program

end LayoutInference
