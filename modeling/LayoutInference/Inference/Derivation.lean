import LayoutInference.Apparent.Evaluation
import LayoutInference.Diagnostic
import LayoutInference.Layout.Registry

/-!
# Deriving layouts from expressions

The layout that an expression shows by itself: a literal by its shape, anything else by its apparent
type. Names, accesses and calls whose answer depends on what a variable or function turns out to be
are left open (`Subject.defers`), and the caller records a promise instead.

Literals may contain each other through references. The layout of a literal is derived once and kept;
while it is being derived it counts as unknown wherever it is met again.
-/

namespace LayoutInference

/-- A program with the apparent types of its nodes. -/
structure Subject where
  program : Program
  apparent : NodeId → Apparent

/-- The program with its apparent types worked out. -/
def Subject.of (program : Program) : Subject :=
  let table := program.apparentTable
  { program, apparent := fun id => if id = 0 then .any else table.getD (id - 1) .any }

/-- What derivation builds up: records and containers, the layouts of literals, and notes. -/
structure Store where
  registry : Registry := {}
  literals : List (NodeId × Layout) := []
  diagnostics : List Diagnostic := []

namespace Store

/-- Run an operation on the registry. -/
def withRegistry {α : Type} (operation : Registry → α × Registry) : StateM Store α :=
  fun s =>
    let (a, registry) := operation s.registry
    (a, { s with registry })

/-- The record with the given fields. -/
def record (hint : String) (fields : List Field) : StateM Store Layout := do
  return .record (← withRegistry (·.register hint fields))

/-- Keep the layout of a literal. -/
def keep (literal : NodeId) (l : Layout) : StateM Store Unit :=
  modify fun s => { s with literals := (literal, l) :: s.literals }

/-- Add a note about a node. -/
def note (program : Program) (notice : Notice) (node : Option NodeId) : StateM Store Unit :=
  modify fun s => { s with
    diagnostics := s.diagnostics ++
      [{ notice, node, position := (node.map program.position).getD {} }] }

end Store

namespace Subject

/-- Whether the layout of a node must come from what the program's variables and functions turn out
to be. That is so for names, accesses and calls whose apparent type is no scalar. -/
def defers (s : Subject) (id : NodeId) : Bool :=
  match s.program.node? id with
  | none => false
  | some n =>
    match n.kind with
    | .identifier | .propertyAccess | .elementAccess | .call =>
      match s.apparent id with
      | .string | .number | .boolean | .void => false
      | _ => true
    | _ => false

section Literal

variable (s : Subject) (literal : String → Node → StateM Store Layout)

mutual

/-- The layout of an apparent type, given a way to derive literals. A record is registered under the
hint. -/
def convert (hint : String) : Apparent → StateM Store Layout
  | .string => pure .string
  | .number => pure .integer
  | .boolean => pure .boolean
  | .void => pure .void
  | .any => pure .pointer
  | .null | .undefined | .function => pure .universal
  | .object [] => pure .universal
  | .object (m :: ms) => do Store.record hint (← convertMembers (m :: ms))
  | .array elem => do
    let l ← convert "" elem
    if l.isFallback then pure .pointer else Store.withRegistry (·.dynamicArray l)

/-- The fields of the members of an object type. A member read from a literal has the layout of that
literal, which is unknown if the literal is empty. -/
def convertMembers : List (Member Apparent) → StateM Store (List Field)
  | [] => pure []
  | ⟨name, type, node⟩ :: ms => do
    let l ← match s.program.at? node with
      | some n =>
        if n.isCollection then (if n.items.isEmpty then pure .pointer else literal name n)
        else convert name type
      | none => convert name type
    return ⟨name, l⟩ :: (← convertMembers ms)

end

/-- The layout of an expression, given a way to derive literals; none if it must be put off. -/
def determineWith (hint : String) (id : NodeId) : StateM Store (Option Layout) :=
  match s.program.node? id with
  | none => pure (some .pointer)
  | some n =>
    if n.isCollection then do return some (← literal hint n)
    else if s.defers id then pure none
    else do
      let l ← s.convert literal hint (s.apparent id)
      if l = .universal then
        Store.note s.program (.noStaticLayout (s.program.text id) (s.apparent id).text) (some id)
      return some l

/-- The layout of a property value inside a literal. Functions, empty literals and values that must
be put off are unknown until a write says more. -/
def propertyLayout (name : String) (value : Option NodeId) : StateM Store Layout :=
  match s.program.at? value with
  | none => pure .pointer
  | some n =>
    if n.kind = .function || (n.isCollection && n.items.isEmpty) then pure .pointer
    else do return (← s.determineWith literal name n.id).getD .pointer

/-- The fields of an object literal. -/
def literalFields : List NodeId → StateM Store (List Field)
  | [] => pure []
  | id :: ids =>
    match s.program.node? id with
    | none => literalFields ids
    | some property =>
      if property.isMember then do
        let l ← s.propertyLayout literal property.name property.expr
        return ⟨property.name, l⟩ :: (← literalFields ids)
      else literalFields ids

/-- The layout of the elements of an array literal: that of the first one. -/
def literalElement (items : List NodeId) : StateM Store Layout :=
  match s.program.at? items.head? with
  | none => pure .pointer
  | some first =>
    if first.kind = .other then pure .pointer
    else do return (← s.determineWith literal "" first.id).getD .pointer

/-- The layout of a literal that is not being derived yet. -/
def literalLayout (hint : String) (n : Node) : StateM Store Layout :=
  if n.kind = .objectLiteral then do Store.record hint (← s.literalFields literal n.items)
  else do
    let elem ← s.literalElement literal n.items
    Store.withRegistry (·.fixedArray elem n.items.length)

end Literal

/-- Derive the layout of a literal while only those of `fresh` are not being derived yet. -/
def deriveLiteral (s : Subject) (fresh : List NodeId) (hint : String) (n : Node) :
    StateM Store Layout := do
  match (← get).literals.lookup n.id with
  | some known => return known
  | none =>
    if _h : n.id ∈ fresh then
      let l ← s.literalLayout (fun hint m => s.deriveLiteral (fresh.erase n.id) hint m) hint n
      Store.keep n.id l
      return l
    else return .pointer
termination_by fresh.length
decreasing_by
  rw [List.length_erase_of_mem _h]
  have := List.length_pos_of_mem _h
  omega

/-- Derive the layout of a literal. -/
def deriveAny (s : Subject) : String → Node → StateM Store Layout :=
  s.deriveLiteral s.program.ids

/-- The layout of an expression; none if it must be put off. -/
def determine (s : Subject) (hint : String) (id : NodeId) : StateM Store (Option Layout) :=
  s.determineWith s.deriveAny hint id

/-- The layout of the apparent type of a node. -/
def quietLayout (s : Subject) (id : NodeId) : StateM Store Layout :=
  s.convert s.deriveAny "" (s.apparent id)

end Subject

end LayoutInference
