import Mathlib
import LayoutInference.Apparent.Evaluation
import LayoutInference.Proofs.Lowering

/-!
# Numbers of nodes

The nodes of a tree are those that its trace adds. They are numbered consecutively from the root on, so
the node that a program keeps at a place has the number of that place, and no number is given twice.

The last section writes down scripts without source text, for programs to be looked at by hand.
-/

namespace LayoutInference

namespace Tree

/-- The nodes of a tree whose root is numbered `id`. -/
def number (around : Surroundings) (id : NodeId) (t : Tree) : List Node :=
  (t.trace around id).filterMap Event.added?

/-- The nodes of the children of `n`, the first of which is numbered `id`. -/
def numberParts (n : Node) (inner next later : Surroundings) (id : NodeId)
    (parts : List (Role × Tree)) : List Node :=
  (traceParts n inner next later id parts).filterMap Event.added?

/-- The nodes of a tree are its root and those of the children. -/
theorem number_node (around : Surroundings) (id : NodeId) (label : Label)
    (parts : List (Role × Tree)) :
    (node label parts).number around id
      = let n := (Node.bare around label id).putAll (rootIds (id + 1) parts)
        let inner := around.inner label id
        n :: numberParts n inner inner (around.later label id) (id + 1) parts := by
  simp [number, numberParts, trace, Event.added?]

/-- The first part is numbered from the next id on, and the others from the id behind its last node. -/
theorem numberParts_cons (n : Node) (inner next later : Surroundings) (id : NodeId) (role : Role)
    (t : Tree) (parts : List (Role × Tree)) :
    numberParts n inner next later id ((role, t) :: parts)
      = t.number (if role = .item then next else inner) id
        ++ numberParts n inner (if role = .item then later else next) later (id + t.size) parts := by
  simp [number, numberParts, traceParts]

mutual

/-- The nodes of a tree are numbered consecutively from its root on. -/
theorem map_id_number (around : Surroundings) (id : NodeId) :
    (t : Tree) → (t.number around id).map (·.id) = List.range' id t.size
  | .node label parts => by
    rw [number_node, size, Nat.add_comm 1, List.range'_succ]
    dsimp only
    rw [List.map_cons, map_id_numberParts, Node.putAll_id]
    rfl

/-- The nodes of children are numbered consecutively. -/
theorem map_id_numberParts (n : Node) (inner next later : Surroundings) (id : NodeId) :
    (parts : List (Role × Tree)) →
      (numberParts n inner next later id parts).map (·.id) = List.range' id (partsSize parts)
  | [] => by rw [partsSize, List.range'_zero]; rfl
  | (role, t) :: parts => by
    rw [numberParts_cons, partsSize, List.map_append, map_id_number _ id t,
      map_id_numberParts n inner _ later (id + t.size) parts, List.range'_append_1]

end

/-- The nodes of the lowered tree, before they are linked. -/
theorem nodes_lowered (tree : Tree) : tree.lowered.nodes.toList = tree.number {} 1 := by
  simp [lowered, Lowering.nodes_follow, number]

end Tree

namespace Program

/-- The nodes of a program are those of its tree, with their declarations filled in. -/
theorem toList_nodes_ofTree (source : Source) (tree : Tree) : (ofTree source tree).nodes.toList
    = (tree.number {} 1).map fun n => { n with decl := n.declarationIn tree.lowered.links.decls } := by
  rw [ofTree_eq, ← tree.nodes_lowered]
  exact Array.toList_map

/-- A program whose nodes are numbered from 1 in the order in which they are kept. -/
def Numbered (p : Program) : Prop := p.nodes.toList.map (·.id) = List.range' 1 p.nodes.size

/-- The program of a tree is numbered so. -/
theorem ofTree_numbered (source : Source) (tree : Tree) : (ofTree source tree).Numbered := by
  have hids := Tree.map_id_number {} 1 tree
  have hlength := congrArg List.length hids
  rw [List.length_map, List.length_range'] at hlength
  rw [Numbered, ← Array.length_toList, toList_nodes_ofTree, List.length_map, hlength, ← hids,
    List.map_map]
  rfl

/-- A script has the program of its tree, unless it has a clause without an end. -/
theorem ofScript_eq_ok_iff {source : Source} {script : Script} {p : Program} :
    ofScript source script = .ok p
      ↔ ofTree source script.toTree = p ∧ p.nodes.any (·.endless) = false := by
  rw [ofScript]
  split
  · next hendless =>
    refine iff_of_false (by simp) ?_
    rintro ⟨rfl, hno⟩
    rw [hendless] at hno
    cases hno
  · next hno =>
    rw [Except.ok.injEq]
    refine ⟨?_, And.left⟩
    rintro rfl
    exact ⟨rfl, Bool.eq_false_iff.mpr hno⟩

/-- The program of a script is numbered. -/
theorem ofScript_numbered {source : Source} {script : Script} {p : Program}
    (h : ofScript source script = .ok p) : p.Numbered := by
  obtain ⟨rfl, -⟩ := ofScript_eq_ok_iff.mp h
  exact ofTree_numbered source script.toTree

/-- A node found under an id is a node of the program. -/
theorem mem_nodes {p : Program} {id : NodeId} {n : Node} (h : p.node? id = some n) :
    n ∈ p.nodes.toList := by
  rw [node?] at h
  split at h
  · cases h
  · exact Array.mem_toList_iff.mpr (Array.mem_of_getElem? h)

/-- No id is listed twice. -/
theorem nodup_ids (p : Program) : p.ids.Nodup := List.nodup_range.map Nat.succ_injective

/-- An id that has a node is one of the program's ids. -/
theorem mem_ids_of_node? {p : Program} {id : NodeId} {n : Node} (h : p.node? id = some n) :
    id ∈ p.ids := by
  rw [node?] at h
  split at h
  · cases h
  · next hne =>
    obtain ⟨hlt, -⟩ := Array.getElem?_eq_some_iff.mp h
    exact List.mem_map.mpr
      ⟨id - 1, List.mem_range.mpr hlt, Nat.sub_add_cancel (Nat.pos_of_ne_zero hne)⟩

namespace Numbered

variable {p : Program} (hp : p.Numbered)

include hp

/-- A node is found under its own id only. -/
theorem id_eq {id : NodeId} {n : Node} (h : p.node? id = some n) : n.id = id := by
  rw [node?] at h
  split at h
  · cases h
  · next hne =>
    have hmap : (p.nodes.toList.map (·.id))[id - 1]? = some n.id := by simp [h]
    rw [hp, List.getElem?_eq_some_iff] at hmap
    obtain ⟨hlt, hget⟩ := hmap
    rw [List.getElem_range', Nat.one_mul, Nat.add_comm] at hget
    rw [← hget]
    exact Nat.sub_add_cancel (Nat.pos_of_ne_zero hne)

/-- Every node of a program is found under its id. -/
theorem node?_of_mem {n : Node} (h : n ∈ p.nodes.toList) : p.node? n.id = some n := by
  obtain ⟨i, hi, rfl⟩ := Array.getElem_of_mem (Array.mem_toList_iff.mp h)
  have hnode : p.node? (i + 1) = some p.nodes[i] := by simp [node?, hi]
  rw [hp.id_eq hnode]
  exact hnode

/-- The id of a node that is found is one of the program's ids. -/
theorem mem_ids {id : NodeId} {n : Node} (h : p.node? id = some n) : n.id ∈ p.ids := by
  rw [hp.id_eq h]
  exact mem_ids_of_node? h

/-- No two nodes share an id. -/
theorem nodup_map_id : (p.nodes.toList.map (·.id)).Nodup := by
  rw [hp]
  exact List.nodup_range'

/-- The nodes that pass a test stand in the order of their ids. -/
theorem pairwise_filter (c : Node → Bool) : (p.nodes.toList.filter c).Pairwise (·.id < ·.id) := by
  refine List.Pairwise.sublist List.filter_sublist (List.pairwise_map.mp ?_)
  rw [hp]
  exact List.pairwise_lt_range'

/-- The ids of the nodes that pass a test are those whose node passes it. -/
theorem mem_filter {c : Node → Bool} {id : NodeId} :
    id ∈ (p.nodes.toList.filter c).map (·.id) ↔ ∃ n, p.node? id = some n ∧ c n = true := by
  rw [List.mem_map]
  constructor
  · rintro ⟨n, hn, rfl⟩
    obtain ⟨hmem, hc⟩ := List.mem_filter.mp hn
    exact ⟨n, hp.node?_of_mem hmem, hc⟩
  · rintro ⟨n, hnode, hc⟩
    exact ⟨n, List.mem_filter.mpr ⟨mem_nodes hnode, hc⟩, hp.id_eq hnode⟩

end Numbered

end Program

/-! ## Scripts without source text -/

namespace Script

/-- A name that stands in an expression. -/
def nameOf (x : String) : Expr := .identifier ⟨0, 0⟩ x

/-- An array literal. -/
def arrayOf (elements : List Expr) : Expr := .array ⟨0, 0⟩ elements

/-- A number. -/
def numberOf (literal : String) : Expr := .number ⟨0, 0⟩ literal

/-- A member of an object literal. -/
def memberOf (name : String) (value : Expr) : Property :=
  .keyed ⟨0, 0⟩ .value false (.string ⟨0, 0⟩ name) value

/-- A declaration with an initial value. -/
def declares (x : String) (e : Expr) : Stmt := .lexical ⟨0, 0⟩ false [.mk (.name ⟨0, 0⟩ x) (some e)]

/-- An assignment. -/
def assigns (left right : Expr) : Stmt := .expression ⟨0, 0⟩ (.assign ⟨0, 0⟩ "=" left right)

/-- A push onto a variable. -/
def pushes (x : String) (e : Expr) : Stmt :=
  .expression ⟨0, 0⟩ (.call ⟨0, 0⟩ (.dot ⟨0, 0⟩ (nameOf x) "push") [e])

/-- The program of a script that has no source text. -/
def program (script : Script) : Program := Program.ofTree ⟨"main.js", []⟩ script.toTree

/-- A script without an endless node gives its program. -/
theorem ofScript_eq_ok (script : Script) (h : script.program.nodes.any (·.endless) = false) :
    Program.ofScript ⟨"main.js", []⟩ script = .ok script.program :=
  Program.ofScript_eq_ok_iff.mpr ⟨rfl, h⟩

end Script

end LayoutInference
