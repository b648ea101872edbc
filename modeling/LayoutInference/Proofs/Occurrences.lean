import Mathlib
import LayoutInference.Proofs.Numbering

/-!
# Occurrences of trees

An occurrence is a tree together with where it stands: what surrounds it, its role there, and the number
of its root. Lowering goes from an occurrence to its parts in source order, so its trace is what it does
itself around the traces of its parts (`Occurrence.trace_eq`), and its nodes are its own and then those of
its parts (`Occurrence.nodes_eq`). Every node of a program stands at the end of a path from the root
(`Occurrence.Path`), and a fact about all nodes is shown by following the path.

`Program.Ancestors` is the same path as the finished program shows it, along the parents of nodes.
-/

namespace LayoutInference

/-- A tree and where it stands: what surrounds it, what it is to the tree around it, and the number of its
root. -/
structure Occurrence where
  around : Surroundings
  role : Role
  id : NodeId
  tree : Tree

/-- The label of the root of a tree. -/
def Tree.label : Tree → Label
  | .node label _ => label

/-- The children of the root of a tree. -/
def Tree.parts : Tree → List (Role × Tree)
  | .node _ parts => parts

namespace Occurrence

open LayoutInference.Tree (rootIds traceParts)

/-- The label of the root. -/
abbrev label (x : Occurrence) : Label := x.tree.label

/-- The node of the root. -/
def node (x : Occurrence) : Node :=
  (Node.bare x.around x.label x.id).putAll (rootIds (x.id + 1) x.tree.parts)

/-- What lowering does for the tree. -/
def trace (x : Occurrence) : List Event := x.tree.trace x.around x.id

/-- The nodes of the tree. -/
def nodes (x : Occurrence) : List Node := x.tree.number x.around x.id

/-- What surrounds the target, the expression and the first item. -/
def inner (x : Occurrence) : Surroundings := x.around.inner x.label x.id

/-- What surrounds the other items. -/
def later (x : Occurrence) : Surroundings := x.around.later x.label x.id

/-- The occurrences of consecutive children, the first of which is numbered `id`. The next item is
surrounded by `next`, those after it by `later`, and all other children by `inner`. -/
def consecutive (inner next later : Surroundings) (id : NodeId) : List (Role × Tree) → List Occurrence
  | [] => []
  | (role, t) :: parts =>
    ⟨if role = .item then next else inner, role, id, t⟩
      :: consecutive inner (if role = .item then later else next) later (id + t.size) parts

/-- The occurrences of the children in source order. -/
def parts (x : Occurrence) : List Occurrence :=
  consecutive x.inner x.inner x.later (x.id + 1) x.tree.parts

/-- The numbers of those among some occurrences that are items. -/
def itemIds (ys : List Occurrence) : List NodeId := (ys.filter (·.role = .item)).map (·.id)

section Fields

variable (x : Occurrence)

@[simp] theorem node_toLabel : x.node.toLabel = x.label := by
  rw [node, Node.putAll_toLabel]
  rfl

@[simp] theorem node_id : x.node.id = x.id := by
  rw [node, Node.putAll_id]
  rfl

@[simp] theorem node_parent : x.node.parent = x.around.parent := by
  rw [node, Node.putAll_parent]
  rfl

@[simp] theorem node_func : x.node.func = x.around.func := by
  rw [node, Node.putAll_func]
  rfl

@[simp] theorem node_scopes : x.node.scopes = x.around.scopes := by
  rw [node, Node.putAll_scopes]
  rfl

@[simp] theorem node_declaredIn : x.node.declaredIn = x.label.declaresIn x.around x.id := by
  rw [node, Node.putAll_declaredIn]
  rfl

end Fields

/-! ## An occurrence and its parts -/

/-- The trace of the parts approaches each of them and then traces it. -/
theorem traceParts_eq (n : Node) (inner next later : Surroundings) (id : NodeId)
    (parts : List (Role × Tree)) : traceParts n inner next later id parts
      = (consecutive inner next later id parts).flatMap fun y => n.approaching y.role ++ y.trace := by
  induction parts generalizing next id with
  | nil => rfl
  | cons part parts ih =>
    obtain ⟨role, t⟩ := part
    rw [traceParts, consecutive, List.flatMap_cons, ih]
    rfl

/-- Lowering a tree is coming to its root, lowering its parts in turn, and leaving the root. -/
theorem trace_eq (x : Occurrence) : x.trace = .adds x.node :: (x.node.entering
    ++ x.parts.flatMap (fun y => x.node.approaching y.role ++ y.trace) ++ x.node.leaving) := by
  obtain ⟨around, role, id, label, parts⟩ := x
  rw [trace, Tree.trace]
  dsimp only
  rw [traceParts_eq]
  rfl

/-- The nodes of an occurrence are its own and those of its parts. -/
theorem nodes_eq (x : Occurrence) : x.nodes = x.node :: x.parts.flatMap nodes := by
  have hnodes : x.nodes = x.trace.filterMap Event.added? := rfl
  rw [hnodes, trace_eq]
  simp only [List.filterMap_cons, Event.added?, List.filterMap_append, Node.added_entering,
    Node.added_leaving, List.nil_append, List.append_nil, List.filterMap_flatMap,
    Node.added_approaching]
  rfl

/-- The parts' roles and ids are those that lowering puts into the node. -/
theorem map_role_id_consecutive (inner next later : Surroundings) (id : NodeId)
    (parts : List (Role × Tree)) :
    (consecutive inner next later id parts).map (fun y => (y.role, y.id)) = rootIds id parts := by
  induction parts generalizing next id with
  | nil => rfl
  | cons part parts ih =>
    obtain ⟨role, t⟩ := part
    rw [consecutive, rootIds, List.map_cons, ih]

/-- A node has its parts as its children. -/
theorem node_eq (x : Occurrence) : x.node
    = (Node.bare x.around x.label x.id).putAll (x.parts.map fun y => (y.role, y.id)) := by
  rw [parts, map_role_id_consecutive]
  rfl

/-- The items of a node are its parts in that role. -/
theorem items_node (x : Occurrence) : x.node.items = itemIds x.parts := by
  have hitems (n : Node) (ys : List Occurrence) :
      (n.putAll (ys.map fun y => (y.role, y.id))).items = n.items ++ itemIds ys := by
    induction ys generalizing n with
    | nil => simp [Node.putAll, itemIds]
    | cons y ys ih =>
      refine (ih (n.put y.role y.id)).trans ?_
      rw [itemIds, itemIds, List.filter_cons]
      cases y.role <;> simp [Node.put]
  rw [node_eq, hitems]
  rfl

/-- What surrounds a child depends on whether it is an item and whether it is the first one. -/
theorem around_consecutive {inner next later : Surroundings} {first : NodeId}
    {parts : List (Role × Tree)} {y : Occurrence} (h : y ∈ consecutive inner next later first parts) :
    y.role ≠ .item ∧ y.around = inner
      ∨ y.around = next ∧ (itemIds (consecutive inner next later first parts)).head? = some y.id
      ∨ y.around = later ∧ y.id ∈ (itemIds (consecutive inner next later first parts)).tail := by
  induction parts generalizing next first with
  | nil => cases h
  | cons part parts ih =>
    obtain ⟨role, t⟩ := part
    rw [consecutive] at h ⊢
    by_cases hrole : role = .item
    · subst hrole
      simp only [if_true] at h ⊢
      rw [itemIds, List.filter_cons, if_pos (by simp), List.map_cons]
      rcases List.mem_cons.mp h with rfl | h
      · exact .inr (.inl ⟨rfl, rfl⟩)
      -- Behind the first item every item is a later one.
      · refine (ih h).imp_right fun haround => .inr ?_
        rcases haround with ⟨haround, hhead⟩ | ⟨haround, htail⟩
        · exact ⟨haround, List.mem_of_head? hhead⟩
        · exact ⟨haround, List.mem_of_mem_tail htail⟩
    · simp only [if_neg hrole] at h ⊢
      rw [itemIds, List.filter_cons, if_neg (by simpa using hrole)]
      rcases List.mem_cons.mp h with rfl | h
      · exact .inl ⟨hrole, rfl⟩
      · exact ih h

/-- The parts are the children, in order. -/
theorem map_parts (x : Occurrence) : x.parts.map (fun y => (y.role, y.tree)) = x.tree.parts := by
  have hmap (inner next later : Surroundings) (id : NodeId) (parts : List (Role × Tree)) :
      (consecutive inner next later id parts).map (fun y => (y.role, y.tree)) = parts := by
    induction parts generalizing next id with
    | nil => rfl
    | cons part parts ih =>
      obtain ⟨role, t⟩ := part
      rw [consecutive, List.map_cons, ih]
  exact hmap x.inner x.inner x.later (x.id + 1) x.tree.parts

/-- A part of an occurrence is a part of its tree. -/
theorem mem_parts {x y : Occurrence} (h : y ∈ x.parts) : (y.role, y.tree) ∈ x.tree.parts := by
  rw [← map_parts]
  exact List.mem_map_of_mem h

/-- Every part of the tree occurs among the parts of the occurrence. -/
theorem exists_part {x : Occurrence} {role : Role} {t : Tree} (h : (role, t) ∈ x.tree.parts) :
    ∃ y ∈ x.parts, y.role = role ∧ y.tree = t := by
  rw [← map_parts] at h
  obtain ⟨y, hy, heq⟩ := List.mem_map.mp h
  exact ⟨y, hy, Prod.mk.inj heq⟩

/-! ## Numbers -/

/-- The nodes below an occurrence have consecutive ids, starting with its own. -/
theorem map_id_nodes (x : Occurrence) : x.nodes.map (·.id) = List.range' x.id x.tree.size :=
  x.tree.map_id_number x.around x.id

/-- The ids of the roots stand among the ids of all the nodes, in the same order. -/
theorem map_id_parts_sublist (xs : List Occurrence) :
    (xs.map (·.id)).Sublist ((xs.flatMap nodes).map (·.id)) := by
  induction xs with
  | nil => exact .slnil
  | cons x xs ih =>
    rw [List.flatMap_cons, List.map_append, nodes_eq, List.map_cons, List.map_cons, List.cons_append,
      node_id]
    exact .cons_cons _ (ih.trans (List.sublist_append_right _ _))

/-- The parts are numbered in ascending order, after the occurrence itself. -/
theorem pairwise_id (x : Occurrence) : (x.id :: x.parts.map (·.id)).Pairwise (· < ·) := by
  have hrange : (x.nodes.map (·.id)).Pairwise (· < ·) := by
    rw [map_id_nodes]
    exact List.pairwise_lt_range'
  rw [nodes_eq, List.map_cons, node_id] at hrange
  exact hrange.sublist (.cons_cons _ (map_id_parts_sublist x.parts))

/-- A part has a greater id than the node it is a part of. -/
theorem id_lt_of_mem_parts {x y : Occurrence} (h : y ∈ x.parts) : x.id < y.id :=
  (List.pairwise_cons.mp x.pairwise_id).1 y.id (List.mem_map_of_mem h)

/-- Parts are told apart by their numbers. -/
theorem eq_of_mem_parts {x y z : Occurrence} (hy : y ∈ x.parts) (hz : z ∈ x.parts) (h : y.id = z.id) :
    y = z := by
  have hnodup : (x.parts.map (·.id)).Nodup := (List.pairwise_cons.mp x.pairwise_id).2.imp Nat.ne_of_lt
  exact List.inj_on_of_nodup_map hnodup hy hz h

/-- Only the items after the first have surroundings of their own. -/
theorem around_eq_of_mem_parts {x y : Occurrence} (h : y ∈ x.parts) :
    y.around = if y.id ∈ x.node.items.tail then x.later else x.inner := by
  have hnodup : x.node.items.Nodup := by
    rw [items_node]
    exact ((List.pairwise_cons.mp x.pairwise_id).2.imp Nat.ne_of_lt).sublist
      (List.filter_sublist.map _)
  rcases around_consecutive h with ⟨hrole, haround⟩ | ⟨haround, hid⟩ | ⟨haround, hid⟩
  · rw [if_neg, haround]
    intro hmem
    rw [items_node] at hmem
    obtain ⟨z, hz, hid⟩ := List.mem_map.mp (List.mem_of_mem_tail hmem)
    obtain ⟨hz, hitem⟩ := List.mem_filter.mp hz
    rw [eq_of_mem_parts hz h hid] at hitem
    exact hrole (of_decide_eq_true hitem)
  · rw [if_neg, haround]
    intro hmem
    obtain ⟨rest, hrest⟩ := List.head?_eq_some_iff.mp hid
    have hitems : x.node.items = y.id :: rest := x.items_node.trans hrest
    rw [hitems] at hmem hnodup
    exact (List.nodup_cons.mp hnodup).1 hmem
  · rw [if_pos, haround]
    rwa [items_node]

/-- The node of an occurrence encloses its parts, whatever its scope covers. -/
theorem around_of_mem_parts {x y : Occurrence} (h : y ∈ x.parts) :
    ∃ scopes, y.around = { x.around.within x.label x.id with scopes } := by
  rw [around_eq_of_mem_parts h, later, inner, Surroundings.later, Surroundings.inner]
  split
  · split
    · exact ⟨_, rfl⟩
    · exact ⟨_, rfl⟩
  · split
    · exact ⟨_, rfl⟩
    · exact ⟨_, rfl⟩

/-- The parent of a part is the node it is a part of. -/
theorem parent_of_mem_parts {x y : Occurrence} (h : y ∈ x.parts) : y.around.parent = some x.id := by
  obtain ⟨scopes, haround⟩ := around_of_mem_parts h
  rw [haround]
  rfl

/-! ## Paths -/

/-- `root.Path y above`: going from occurrences to parts of them leads from `root` to `y`; `above` are
those on the way, the nearest first. -/
inductive Path (root : Occurrence) : Occurrence → List Occurrence → Prop where
  | root : Path root root []
  | part {x y : Occurrence} {above : List Occurrence} (h : Path root x above) (hy : y ∈ x.parts) :
    Path root y (x :: above)

/-- A part has fewer nodes than the tree it is a part of. -/
theorem size_lt_of_mem_parts {x y : Occurrence} (h : y ∈ x.parts) : y.tree.size < x.tree.size := by
  have hlength := congrArg List.length x.map_id_nodes
  have hmem : y.nodes.length ≤ (x.parts.flatMap nodes).length := by
    obtain ⟨before, after, hparts⟩ := List.append_of_mem h
    simp [hparts]
    omega
  have hy := congrArg List.length y.map_id_nodes
  rw [List.length_map, List.length_range'] at hlength hy
  rw [nodes_eq, List.length_cons] at hlength
  omega

/-- A property that an occurrence has if its parts have it holds of all occurrences. -/
theorem induction {P : Occurrence → Prop} (h : ∀ x, (∀ y ∈ x.parts, P y) → P x) (x : Occurrence) :
    P x :=
  h x fun y _hy => induction h y
termination_by x.tree.size
decreasing_by exact size_lt_of_mem_parts _hy

/-- A node reached by a path is one of the nodes below the root. -/
theorem Path.mem_nodes {root y : Occurrence} {above : List Occurrence} (h : root.Path y above) :
    y.node ∈ root.nodes := by
  have hsub : y.nodes ⊆ root.nodes := by
    induction h with
    | root => exact fun _ h => h
    | @part x y above h hy ih =>
      intro n hn
      refine ih ?_
      rw [nodes_eq]
      exact List.mem_cons_of_mem _ (List.mem_flatMap.mpr ⟨y, hy, hn⟩)
  refine hsub ?_
  rw [nodes_eq]
  exact List.mem_cons_self

/-- Every node stands at the end of a path. -/
theorem exists_path {root : Occurrence} {n : Node} (h : n ∈ root.nodes) :
    ∃ y above, root.Path y above ∧ n = y.node := by
  have hbelow (x : Occurrence) : ∀ above, root.Path x above → n ∈ x.nodes →
      ∃ y above, root.Path y above ∧ n = y.node := by
    induction x using induction with
    | h x ih =>
      intro above hpath hn
      rw [nodes_eq] at hn
      rcases List.mem_cons.mp hn with rfl | hn
      · exact ⟨x, above, hpath, rfl⟩
      · obtain ⟨y, hy, hn⟩ := List.mem_flatMap.mp hn
        exact ih y hy (x :: above) (.part hpath hy) hn
  exact hbelow root [] .root h

end Occurrence

/-! ## Programs -/

/-- `p.Ancestors n above`: the nodes around `n` along the parents, the nearest first. -/
inductive Program.Ancestors (p : Program) : Node → List Node → Prop where
  | root {n : Node} (h : n.parent = none) : Ancestors p n []
  | inside {n parent : Node} {above : List Node} (hparent : p.at? n.parent = some parent)
    (h : Ancestors p parent above) : Ancestors p n (parent :: above)

/-- The whole tree of a program. -/
def Tree.whole (tree : Tree) : Occurrence := ⟨{}, .item, 1, tree⟩

/-- The node of an occurrence as it stands in the program of a tree, with its declaration. -/
def Tree.shown (tree : Tree) (y : Occurrence) : Node :=
  { y.node with decl := y.node.declarationIn tree.lowered.links.decls }

section Shown

variable (tree : Tree) (y : Occurrence)

@[simp] theorem Tree.shown_toLabel : (tree.shown y).toLabel = y.label := y.node_toLabel

@[simp] theorem Tree.shown_id : (tree.shown y).id = y.id := y.node_id

@[simp] theorem Tree.shown_parent : (tree.shown y).parent = y.around.parent := y.node_parent

@[simp] theorem Tree.shown_func : (tree.shown y).func = y.around.func := y.node_func

@[simp] theorem Tree.shown_scopes : (tree.shown y).scopes = y.around.scopes := y.node_scopes

@[simp] theorem Tree.shown_declaredIn :
    (tree.shown y).declaredIn = y.label.declaresIn y.around y.id :=
  y.node_declaredIn

end Shown

namespace Program

variable {source : Source} {tree : Tree} {y : Occurrence} {above : List Occurrence}

/-- The nodes of a program are those of its tree, each with the declaration its name was linked to. -/
theorem nodes_ofTree (source : Source) (tree : Tree) : (ofTree source tree).nodes.toList
    = tree.whole.nodes.map fun n => { n with decl := n.declarationIn tree.lowered.links.decls } :=
  toList_nodes_ofTree source tree

/-- The node at the end of a path is found under its id. -/
theorem node?_of_path (h : tree.whole.Path y above) :
    (ofTree source tree).node? y.id = some (tree.shown y) := by
  have hmem : tree.shown y ∈ (ofTree source tree).nodes.toList := by
    rw [nodes_ofTree]
    exact List.mem_map.mpr ⟨y.node, h.mem_nodes, rfl⟩
  rw [← tree.shown_id y]
  exact (ofTree_numbered source tree).node?_of_mem hmem

/-- Every node of a program stands at the end of a path from the root. -/
theorem exists_path {n : Node} (h : n ∈ (ofTree source tree).nodes.toList) :
    ∃ y above, tree.whole.Path y above ∧ n = tree.shown y := by
  rw [nodes_ofTree] at h
  obtain ⟨m, hm, rfl⟩ := List.mem_map.mp h
  obtain ⟨y, above, hpath, rfl⟩ := Occurrence.exists_path hm
  exact ⟨y, above, hpath, rfl⟩

/-- The ancestors of a node are the nodes of the occurrences above it. -/
theorem ancestors_of_path (h : tree.whole.Path y above) :
    (ofTree source tree).Ancestors (tree.shown y) (above.map tree.shown) := by
  induction h with
  | root => exact .root (tree.shown_parent tree.whole)
  | @part x y above hpath hy ih =>
    refine .inside ?_ ih
    rw [at?, Tree.shown_parent, Occurrence.parent_of_mem_parts hy]
    exact node?_of_path hpath

/-- A node has one list of ancestors. -/
theorem Ancestors.unique {p : Program} {n : Node} {above above' : List Node} (h : p.Ancestors n above)
    (h' : p.Ancestors n above') : above = above' := by
  induction h generalizing above' with
  | root h =>
    cases h' with
    | root => rfl
    | inside hparent => simp [h, at?] at hparent
  | inside hparent h ih =>
    cases h' with
    | root h => simp [h, at?] at hparent
    | inside hparent' h' =>
      obtain rfl := Option.some.inj (hparent.symm.trans hparent')
      rw [ih h']

/-- What is passed down to the parts unless a node of some kind puts its own number in its place comes
from the nearest such node. -/
theorem nearest_of_path {f : Surroundings → Option NodeId} {c : Kind → Bool} (hroot : f {} = none)
    (hpart : ∀ around label id scopes, f { Surroundings.within around label id with scopes }
      = if c label.kind then some id else f around)
    (h : tree.whole.Path y above) :
    f y.around = ((above.map tree.shown).find? fun n => c n.kind).map (·.id) := by
  induction h with
  | root => exact hroot
  | @part x y above hpath hy ih =>
    obtain ⟨scopes, haround⟩ := Occurrence.around_of_mem_parts hy
    rw [haround, hpart, List.map_cons, List.find?_cons]
    split
    · next hkind => simp [hkind]
    · next hkind => simp [hkind, ih]

end Program

end LayoutInference
