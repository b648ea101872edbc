import LayoutInference.Tree

/-!
# Numbered nodes

The nodes of a tree are numbered from 1, each with its parent, the function it belongs to and the scopes
that are open where it stands. A scope is named by the node that opens it, so a chain of scopes is a
list of node numbers, innermost first.

A node keeps its children by role; `Node.children` lists them in source order. `Surroundings` are what
a node takes over from the nodes around it.
-/

namespace LayoutInference

/-- Nodes are numbered from 1. -/
abbrev NodeId := Nat

/-- A numbered node. -/
structure Node extends Label where
  id : NodeId
  parent : Option NodeId
  /-- The innermost function around the node. -/
  func : Option NodeId
  target : Option NodeId
  expr : Option NodeId
  items : List NodeId
  /-- The scopes open where the node stands, innermost first. -/
  scopes : List NodeId
  /-- The scope in which the node declares its name, if it declares one. -/
  declaredIn : Option NodeId
  /-- The declaration that the node, an identifier or a declaration, belongs to. -/
  decl : Option NodeId := none

namespace Node

/-- The node with one child more. -/
def put (n : Node) (role : Role) (child : NodeId) : Node :=
  match role with
  | .target => { n with target := some child }
  | .expr => { n with expr := some child }
  | .item => { n with items := n.items ++ [child] }

/-- The children of a node in source order, which depends on its kind. -/
def children (n : Node) : List NodeId :=
  match n.kind with
  | .forOf | .forIn | .propertyAccess | .elementAccess | .call | .new | .assign | .binary
  | .property => n.target.toList ++ n.expr.toList ++ n.items
  | .ifElse | .conditional | .unary | .exprStatement | .ret | .variable | .parameter =>
    n.expr.toList ++ n.items
  | .function => n.items ++ n.expr.toList
  | _ => n.target.toList ++ n.items ++ n.expr.toList

/-- Whether the node is a function that declares its name inside itself. -/
def namesItself (n : Node) : Bool := n.kind = .function && !n.declared

/-- Whether the node is a literal that has no parts with a type of their own. -/
def isLiteral (n : Node) : Bool :=
  match n.kind with
  | .number | .string | .boolean | .null | .template => true
  | _ => false

/-- Whether the node is an array or object literal. -/
def isCollection (n : Node) : Bool :=
  match n.kind with
  | .arrayLiteral | .objectLiteral => true
  | _ => false

/-- Whether the node is a property that gives its object a member under a known name. -/
def isMember (n : Node) : Bool := n.kind = .property && n.name ≠ "" && !n.unsupported

end Node

/-- Where a node stands: what surrounds it. -/
structure Surroundings where
  parent : Option NodeId := none
  func : Option NodeId := none
  scopes : List NodeId := []
  /-- The nearest scope of a function or of the program. -/
  hoist : Option NodeId := none
  /-- Whether the parent is a function. -/
  inFunction : Bool := false

/-- How much of a node its own scope covers. -/
inductive Opening where
  | nothing
  | everything
  /-- All but the first item. -/
  | afterFirst
deriving DecidableEq

/-- The scope that a node opens. Functions share theirs with their body block; a `switch` opens its
scope after the value it branches on. -/
def Label.opening (label : Label) (around : Surroundings) : Opening :=
  match label.kind with
  | .program | .function | .forOf | .forIn => .everything
  | .block => if around.inFunction then .nothing else .everything
  | .loop => if label.value = "for" then .everything else .nothing
  | .other => if label.value = "switch" then .afterFirst else .nothing
  | _ => .nothing

/-- The scope in which the node numbered `id` declares its name: the nearest function or program
scope for `var` and function declarations, its own scope for the name of a function expression, the
innermost scope for parameters and all other variables. -/
def Label.declaresIn (label : Label) (around : Surroundings) (id : NodeId) : Option NodeId :=
  if label.name = "" then none
  else match label.kind with
    | .variable => if label.value = "var" then around.hoist else around.scopes.head?
    | .parameter => around.scopes.head?
    | .function => if label.declared then around.hoist else some id
    | _ => none

namespace Surroundings

/-- The surroundings of the children of node `id`, leaving scopes aside. -/
def within (around : Surroundings) (label : Label) (id : NodeId) : Surroundings where
  parent := some id
  func := if label.kind = .function then some id else around.func
  scopes := around.scopes
  hoist := if label.kind = .function ∨ label.kind = .program then some id else around.hoist
  inFunction := label.kind = .function

/-- The surroundings inside the scope opened by `id`. -/
def inScope (around : Surroundings) (id : NodeId) : Surroundings :=
  { around with scopes := id :: around.scopes }

/-- The surroundings of the target, the expression and the first item of node `id`. -/
def inner (around : Surroundings) (label : Label) (id : NodeId) : Surroundings :=
  if label.opening around = .everything then (around.within label id).inScope id
  else around.within label id

/-- The surroundings of the other items of node `id`. -/
def later (around : Surroundings) (label : Label) (id : NodeId) : Surroundings :=
  if label.opening around = .nothing then around.within label id
  else (around.within label id).inScope id

end Surroundings

end LayoutInference
