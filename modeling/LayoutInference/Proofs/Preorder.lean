import Mathlib
import LayoutInference.Proofs.Links

/-!
# Programs as numbered trees

The nodes of a program form a tree that is numbered in pre-order. `Program.Visits` is the walk along
children that visits a node before what is below it; in the program of a script it meets the nodes
1, 2, 3, … in this order. So each node but the root is listed by one node, its parent, and the function
that a node belongs to is the nearest one around it: `ofScript_preorder`.

The walk goes by the children that each node lists by its kind, which are its parts in the order of
lowering (`Program.children_of_path`), and is followed occurrence by occurrence (`Program.visits_nodes`).
Returns are listed during lowering; that each function ends up with its own, in order, comes from
`Occurrence.mem_returned_iff` and `Occurrence.pairwise_returned`. Everything else is read off the path to
a node.
-/

namespace LayoutInference

namespace Program

/-- `p.Visits waiting order`: with the nodes of `waiting` before it, the walk that visits a node and goes
on with its children, from the first to the last, before what waits behind it visits the nodes of
`order`. -/
inductive Visits (p : Program) : List NodeId → List NodeId → Prop where
  | done : Visits p [] []
  | visit {id : NodeId} {waiting order : List NodeId}
    (h : Visits p (p.children id ++ waiting) order) : Visits p (id :: waiting) (id :: order)

/-- There is one walk. -/
theorem Visits.unique {p : Program} {waiting order order' : List NodeId}
    (h : p.Visits waiting order) (h' : p.Visits waiting order') : order = order' := by
  induction h generalizing order' with
  | done =>
    cases h'
    rfl
  | visit _ ih =>
    cases h' with
    | visit h' => rw [ih h']

section Script

variable {source : Source} {script : Script} {y : Occurrence} {above : List Occurrence}

/-- A program has as many nodes as its tree. -/
theorem size_ofTree (source : Source) (tree : Tree) : (ofTree source tree).nodes.size = tree.size := by
  have hlength := congrArg List.length tree.whole.map_id_nodes
  rw [List.length_map, List.length_range'] at hlength
  rw [← Array.length_toList, nodes_ofTree, List.length_map, hlength]
  rfl

/-- The children that a node lists are its parts, in order. -/
theorem children_of_path (h : script.toTree.whole.Path y above) :
    (ofTree source script.toTree).children y.id = y.parts.map (·.id) := by
  rw [children, node?_of_path h]
  exact y.children_node (script.toTree_all.path h).root

/-- The walk visits the nodes of an occurrence in the order of their numbers. -/
theorem visits_nodes (y : Occurrence) : ∀ above, script.toTree.whole.Path y above →
    ∀ waiting order, (ofTree source script.toTree).Visits waiting order →
      (ofTree source script.toTree).Visits (y.id :: waiting) (y.nodes.map (·.id) ++ order) := by
  induction y using Occurrence.induction with
  | h y ih =>
    intro above hpath waiting order hwaiting
    have hparts : ∀ zs : List Occurrence, zs ⊆ y.parts → (ofTree source script.toTree).Visits
        (zs.map (·.id) ++ waiting) ((zs.flatMap Occurrence.nodes).map (·.id) ++ order) := by
      intro zs hzs
      induction zs with
      | nil => exact hwaiting
      | cons z zs ihz =>
        obtain ⟨hz, hrest⟩ := List.cons_subset.mp hzs
        rw [List.flatMap_cons, List.map_append, List.append_assoc]
        exact ih z hz (y :: above) (.part hpath hz) _ _ (ihz hrest)
    rw [y.nodes_eq, List.map_cons, y.node_id, List.cons_append]
    refine .visit ?_
    rw [children_of_path hpath]
    exact hparts y.parts (List.Subset.refl _)

/-- The function that a node belongs to is the nearest above it. -/
theorem func_of_path {tree : Tree} (h : tree.whole.Path y above) : y.around.func
    = ((above.map tree.shown).find? (·.kind = .function)).map (·.id) := by
  refine nearest_of_path (c := fun kind => kind = .function) rfl ?_ h
  intro around label id scopes
  simp [Surroundings.within]

/-- What is listed as a child stands at the end of a path through the node that lists it. -/
theorem exists_path_of_mem_children {id child : NodeId}
    (h : child ∈ (ofTree source script.toTree).children id) :
    ∃ x z above, script.toTree.whole.Path x above ∧ z ∈ x.parts ∧ x.id = id ∧ z.id = child := by
  cases hnode : (ofTree source script.toTree).node? id with
  | none => simp [children, hnode] at h
  | some n =>
    obtain ⟨x, above, hpath, rfl⟩ := exists_path (mem_nodes hnode)
    have hid : x.id = id := by
      rw [← (ofTree_numbered source script.toTree).id_eq hnode, script.toTree.shown_id]
    rw [← hid, children_of_path hpath] at h
    obtain ⟨z, hz, rfl⟩ := List.mem_map.mp h
    exact ⟨x, z, above, hpath, hz, hid, rfl⟩

/-- A node that is part of another is listed by that one, once, and by no other. -/
theorem listed_of_mem_parts {x : Occurrence} (h : script.toTree.whole.Path x above) (hy : y ∈ x.parts) :
    ((ofTree source script.toTree).children x.id).count y.id = 1
      ∧ ∀ id, y.id ∈ (ofTree source script.toTree).children id → id = x.id := by
  constructor
  · rw [children_of_path h]
    refine List.count_eq_one_of_mem ?_ (List.mem_map_of_mem hy)
    exact (List.pairwise_cons.mp x.pairwise_id).2.imp Nat.ne_of_lt
  · intro id hlisted
    obtain ⟨x', z, above', hpath, hz, rfl, hid⟩ := exists_path_of_mem_children hlisted
    -- One number stands for one node, which has one parent.
    have hsame : script.toTree.shown z = script.toTree.shown y := by
      have hfound : (ofTree source script.toTree).node? z.id = some (script.toTree.shown z) :=
        node?_of_path (.part hpath hz)
      rw [hid, node?_of_path (.part h hy)] at hfound
      exact (Option.some.inj hfound).symm
    have hparent := congrArg Node.parent hsame
    rw [script.toTree.shown_parent, script.toTree.shown_parent, Occurrence.parent_of_mem_parts hz,
      Occurrence.parent_of_mem_parts hy] at hparent
    exact Option.some.inj hparent

/-! ## Returns -/

/-- No function has the number 0, under which the returns outside of all functions are kept. -/
theorem getD_func {tree : Tree} {n : Node} (h : n ∈ tree.whole.nodes) {fn : NodeId} :
    n.func.getD 0 = fn ↔ n.func = if fn = 0 then none else some fn := by
  have hfunc := Occurrence.func_of_mem_nodes h
  rcases hfunc with hfunc | ⟨fn', hfunc, hpos⟩
  · have hnone : n.func = none := hfunc
    rw [hnone, Option.getD_none]
    by_cases hfn : fn = 0 <;> simp [hfn, eq_comm]
  · have hpos : 1 ≤ fn' := hpos
    rw [hfunc, Option.getD_some]
    by_cases hfn : fn = 0
    · simp [hfn, Nat.ne_of_gt hpos]
    · simp [hfn]

/-- The return statements of a function come in the order of their numbers. -/
theorem pairwise_returns (fn : NodeId) : ((ofTree source script.toTree).returns fn).Pairwise (· < ·) := by
  have hreturned := Occurrence.pairwise_returned script.toTree_all script.toTree.whole_outer
  rw [returns, returned_eq, List.filter_map, List.map_map, List.pairwise_map]
  refine (hreturned.sublist List.filter_sublist).imp_of_mem ?_
  intro n m hn hm hlt
  obtain ⟨hn, hnfn⟩ := List.mem_filter.mp hn
  obtain ⟨hm, hmfn⟩ := List.mem_filter.mp hm
  have hnfunc := (getD_func (Occurrence.mem_returned_iff.mp hn).1).mp (of_decide_eq_true hnfn)
  have hmfunc := (getD_func (Occurrence.mem_returned_iff.mp hm).1).mp (of_decide_eq_true hmfn)
  exact hlt (hnfunc.trans hmfunc.symm)

/-- The returns of a function are the return statements that belong to it. -/
theorem mem_returns {tree : Tree} {fn id : NodeId} : id ∈ (ofTree source tree).returns fn
    ↔ ∃ n, (ofTree source tree).node? id = some n ∧ n.kind = .ret
      ∧ n.func = if fn = 0 then none else some fn := by
  have hp := ofTree_numbered source tree
  rw [returns, returned_eq, List.filter_map, List.map_map, List.mem_map]
  constructor
  · rintro ⟨m, hm, rfl⟩
    obtain ⟨hm, hfn⟩ := List.mem_filter.mp hm
    obtain ⟨hm, hkind⟩ := Occurrence.mem_returned_iff.mp hm
    have hnode := hp.node?_of_mem (mem_nodes_ofTree.mpr ⟨m, hm, rfl⟩)
    exact ⟨_, hnode, hkind, (getD_func hm).mp (of_decide_eq_true hfn)⟩
  · rintro ⟨n, hnode, hkind, hfunc⟩
    obtain ⟨m, hm, rfl⟩ := mem_nodes_ofTree.mp (mem_nodes hnode)
    have hid := hp.id_eq hnode
    refine ⟨m, List.mem_filter.mpr ⟨Occurrence.mem_returned_iff.mpr ⟨hm, hkind⟩, ?_⟩, hid⟩
    exact decide_eq_true ((getD_func hm).mpr hfunc)

end Script

/-- What the nodes of a program are like. -/
structure PreorderTree (p : Program) : Prop where
  /-- Nodes are numbered from 1 in the order in which they are kept. -/
  numbers : ∀ i n, p.nodes[i]? = some n → n.id = i + 1
  /-- The walk from the root visits all of them in this order. -/
  walk : ∀ order, p.Visits [1] order ↔ order = List.range' 1 p.nodes.size
  /-- Every node but the root is listed once, by its parent, which has a smaller number. -/
  listed : ∀ n ∈ p.nodes.toList, n.id ≠ 1 → ∃ parent, n.parent = some parent ∧ parent < n.id
    ∧ (p.children parent).count n.id = 1 ∧ ∀ id, n.id ∈ p.children id → id = parent
  /-- The function of a node is the nearest one around it. -/
  functions : ∀ n ∈ p.nodes.toList, ∃ above, p.Ancestors n above
    ∧ n.func = (above.find? (·.kind = .function)).map (·.id)
  /-- The returns of a function are the return statements that belong to it, in order; those outside of
  all functions are kept under 0. -/
  returns : ∀ fn, (p.returns fn).Pairwise (· < ·)
    ∧ ∀ id, id ∈ p.returns fn ↔ ∃ n, p.node? id = some n ∧ n.kind = .ret
      ∧ n.func = if fn = 0 then none else some fn

/-- The program of the tree of a script is a tree numbered in pre-order. -/
theorem ofTree_preorderTree (source : Source) (script : Script) :
    (ofTree source script.toTree).PreorderTree := by
  have hp := ofTree_numbered source script.toTree
  constructor
  case numbers =>
    intro i n hn
    have hnode : (ofTree source script.toTree).node? (i + 1) = some n := by simpa [node?] using hn
    exact hp.id_eq hnode
  case walk =>
    intro order
    -- The walk from the root with nothing behind it.
    have hwalk : (ofTree source script.toTree).Visits [1] (script.toTree.whole.nodes.map (·.id) ++ []) :=
      visits_nodes script.toTree.whole [] .root [] [] .done
    rw [List.append_nil, script.toTree.whole.map_id_nodes] at hwalk
    rw [size_ofTree]
    refine ⟨fun h => h.unique hwalk, ?_⟩
    rintro rfl
    exact hwalk
  case listed =>
    intro n hn hroot
    obtain ⟨y, above, hpath, rfl⟩ := exists_path hn
    cases hpath with
    | root => exact absurd (script.toTree.shown_id script.toTree.whole) hroot
    | @part x _ above hpath hy =>
      rw [script.toTree.shown_parent, script.toTree.shown_id]
      exact ⟨x.id, Occurrence.parent_of_mem_parts hy, Occurrence.id_lt_of_mem_parts hy,
        listed_of_mem_parts hpath hy⟩
  case functions =>
    intro n hn
    obtain ⟨y, above, hpath, rfl⟩ := exists_path hn
    refine ⟨above.map script.toTree.shown, ancestors_of_path hpath, ?_⟩
    rw [script.toTree.shown_func]
    exact func_of_path hpath
  case returns =>
    exact fun fn => ⟨pairwise_returns fn, fun id => mem_returns⟩

/-- An arrow function whose body is an expression has a block with one statement in its place, which
returns the value of the expression. -/
theorem returns_arrowExpr {source : Source} {tree : Tree} {y : Occurrence} {above : List Occurrence}
    (h : tree.whole.Path y above) {span bodySpan : Span} {params : List Script.Binding}
    {rest : Option Script.Target} {body : Script.Expr}
    (hy : y.tree = (Script.Expr.arrowExpr span params rest bodySpan body).toTree) :
    ∃ value ret block, tree.whole.Path value (ret :: block :: y :: above)
      ∧ value.tree = body.toTree ∧ ret.label = { kind := .ret, span := bodySpan }
      ∧ ret.id ∈ (ofTree source tree).returns y.id := by
  rw [Script.Expr.toTree] at hy
  -- The tree of such a function is written out: a block, a return statement in it, the value in that.
  obtain ⟨block, hblock, -, hblocktree⟩ := y.exists_part
    (by rw [hy]; exact List.mem_append_right _ (List.mem_singleton_self _))
  obtain ⟨ret, hret, -, hrettree⟩ := block.exists_part (by rw [hblocktree]; exact List.mem_cons_self)
  obtain ⟨value, hvalue, -, hvaluetree⟩ := ret.exists_part
    (by rw [hrettree]; exact List.mem_cons_self)
  have hpath := (h.part hblock).part hret
  have hlabel : ret.label = { kind := .ret, span := bodySpan } := by
    rw [Occurrence.label, hrettree]
    rfl
  -- Of the nodes above the return statement the block is no function, so the function is the nearest.
  have hfunc : (tree.shown ret).func = some y.id := by
    rw [tree.shown_func, func_of_path hpath]
    simp [Occurrence.label, hy, hblocktree, Tree.label, Tree.function]
  have hpos : y.id ≠ 0 := by
    have hle := (Occurrence.id_range_of_mem_nodes h.mem_nodes).1
    rw [y.node_id] at hle
    exact Nat.ne_of_gt hle
  refine ⟨value, ret, block, hpath.part hvalue, hvaluetree, hlabel, mem_returns.mpr ?_⟩
  exact ⟨tree.shown ret, node?_of_path hpath, by simp [hlabel], by rw [hfunc, if_neg hpos]⟩

/-- The nodes of a script's program are a tree numbered in pre-order, each node knows its function, and
each function its returns, the one that stands for the body of an arrow function among them. -/
theorem ofScript_preorder {source : Source} {script : Script} {p : Program}
    (h : ofScript source script = .ok p) :
    p.PreorderTree
      ∧ ∀ y above, script.toTree.whole.Path y above → ∀ span params rest bodySpan body,
        y.tree = (Script.Expr.arrowExpr span params rest bodySpan body).toTree →
        ∃ value ret block, script.toTree.whole.Path value (ret :: block :: y :: above)
          ∧ value.tree = body.toTree ∧ ret.label = { kind := .ret, span := bodySpan }
          ∧ ret.id ∈ p.returns y.id := by
  obtain ⟨rfl, -⟩ := ofScript_eq_ok_iff.mp h
  refine ⟨ofTree_preorderTree source script, ?_⟩
  intro y above hpath span params rest bodySpan body hy
  exact returns_arrowExpr hpath hy

/-- `function g(xs) { for (let v of xs) if (v) { return () => v; } else { v = v ? -v : [v]; } return xs; }`
-/
def nestedReturns : Script :=
  let v := Script.nameOf "v"
  ⟨[.function ⟨0, 0⟩ "g" [.mk (.name ⟨0, 0⟩ "xs") none] none (.mk ⟨0, 0⟩
    [.forOf ⟨0, 0⟩ (.lexical false (.name ⟨0, 0⟩ "v")) (Script.nameOf "xs")
      (.ifElse ⟨0, 0⟩ v
        (.block (.mk ⟨0, 0⟩ [.ret ⟨0, 0⟩ (some (.arrowExpr ⟨0, 0⟩ [] none ⟨0, 0⟩ v))]))
        (some (.block (.mk ⟨0, 0⟩ [Script.assigns v
          (.conditional ⟨0, 0⟩ v (.unary ⟨0, 0⟩ "-" v) (Script.arrayOf [v]))])))),
      .ret ⟨0, 0⟩ (some (Script.nameOf "xs"))])]⟩

/-- The loop, node 5, has its variable and its source before its body; the branches, nodes 8 and 20, start
with their conditions; a function, node 2, with its parameters. The return of the inner function, node 14,
stands in one of the returns of the outer one. -/
theorem ofScript_preorder_nestedReturns :
    ofScript ⟨"main.js", []⟩ nestedReturns = .ok nestedReturns.program
      ∧ (∀ order, nestedReturns.program.Visits [1] order ↔ order = List.range' 1 27)
      ∧ [2, 5, 8, 20].map nestedReturns.program.children = [[3, 4], [6, 7, 8], [9, 10, 16], [21, 22, 24]]
      ∧ [2, 12].map nestedReturns.program.returns = [[11, 26], [14]] := by
  have hscript := Script.ofScript_eq_ok nestedReturns (by decide +kernel)
  have hsize : nestedReturns.program.nodes.size = 27 := by decide +kernel
  refine ⟨hscript, ?_, by decide +kernel, by decide +kernel⟩
  rw [← hsize]
  exact (ofScript_preorder hscript).1.walk

end Program

end LayoutInference
