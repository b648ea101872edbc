import Mathlib
import LayoutInference.Proofs.Shapes

/-!
# The order of declarations and returns

Lowering binds names and lists return statements at moments of its own: a function that names itself does
so after its parameters, and a return statement is listed when its argument is done. Here these moments
are compared with the order of the numbers.

* The identifiers are left for later in the order of their numbers (`Occurrence.referred_eq_filter`).
* The returns of one function are listed in the order of their numbers, since no return of the function
  stands in the argument of another (`Occurrence.pairwise_returned`).
* The declarations of one scope take effect in the order of `Node.Precedes`: parameters, then the
  function that names itself, then all others by their numbers (`Occurrence.pairwise_declared`).

What makes this hold is where scopes and functions lie: whatever a tree declares or returns belongs to
what surrounds the tree or to something inside it (`Occurrence.scope_of_mem_nodes`,
`Occurrence.func_of_mem_nodes`), and for an expression only the latter is possible
(`Occurrence.inside_of_contained`).
-/

namespace LayoutInference

/-- The order in which the declarations of the scope of `scope` take effect: parameters, then the function
that opened the scope, then all others. -/
def Node.bindingRank (scope : NodeId) (d : Node) : Nat :=
  if d.kind = .parameter then 0 else if d.id = scope then 1 else 2

/-- The declaration takes effect before another one of the same scope. -/
def Node.Precedes (scope : NodeId) (d e : Node) : Prop :=
  d.bindingRank scope < e.bindingRank scope
    ∨ d.bindingRank scope = e.bindingRank scope ∧ d.id < e.id

/-- Wherever both declare their names in one scope, the first node takes effect before the second. -/
def Node.InTurn (d e : Node) : Prop :=
  ∀ scope, d.declaredIn = some scope → e.declaredIn = some scope → d.Precedes scope e

/-- What comes last in a scope is preceded by all that has smaller numbers. -/
theorem Node.precedes_of_last {scope : NodeId} {d e : Node} (h : e.bindingRank scope = 2)
    (hlt : d.id < e.id) : d.Precedes scope e := by
  have hle : d.bindingRank scope ≤ 2 := by
    rw [bindingRank]
    split
    · exact Nat.zero_le 2
    · split <;> decide
  rw [Precedes, h]
  exact (Nat.lt_or_eq_of_le hle).imp_right fun heq => ⟨heq, hlt⟩

/-- Of two declarations in one scope at most one precedes the other. -/
theorem Node.Precedes.asymm {scope : NodeId} {d e : Node} (h : d.Precedes scope e) :
    ¬e.Precedes scope d := by
  rcases h with hlt | ⟨heq, hlt⟩
  · rintro (hlt' | ⟨heq', -⟩)
    · exact Nat.lt_asymm hlt hlt'
    · exact Nat.ne_of_lt hlt heq'.symm
  · rintro (hlt' | ⟨-, hlt'⟩)
    · exact Nat.ne_of_lt hlt' heq.symm
    · exact Nat.lt_asymm hlt hlt'

namespace Occurrence

/-- The nodes that lowering declares, in order. -/
def declared (x : Occurrence) : List Node := x.trace.filterMap Event.declared?

/-- The identifiers that lowering leaves for later, in order. -/
def referred (x : Occurrence) : List Node := x.trace.filterMap Event.referred?

/-- The return statements that lowering lists, in order. -/
def returned (x : Occurrence) : List Node := x.trace.filterMap Event.returned?

/-! ## Numbers in a tree -/

/-- The nodes of a tree are numbered from its root on. -/
theorem id_range_of_mem_nodes {x : Occurrence} {n : Node} (h : n ∈ x.nodes) :
    x.id ≤ n.id ∧ n.id < x.id + x.tree.size := by
  have hid : n.id ∈ x.nodes.map (·.id) := List.mem_map_of_mem h
  rw [map_id_nodes] at hid
  exact List.mem_range'_1.mp hid

/-- A node of a tree is its root or stands in one of its parts. -/
theorem mem_nodes_iff {x : Occurrence} {n : Node} :
    n ∈ x.nodes ↔ n = x.node ∨ ∃ y ∈ x.parts, n ∈ y.nodes := by
  rw [nodes_eq, List.mem_cons, List.mem_flatMap]

/-- The parts of a tree are numbered one after the other. -/
theorem pairwise_parts (x : Occurrence) : x.parts.Pairwise fun y z => y.id + y.tree.size ≤ z.id := by
  have hconsecutive (inner next later : Surroundings) (id : NodeId) (parts : List (Role × Tree)) :
      (consecutive inner next later id parts).Pairwise (fun y z => y.id + y.tree.size ≤ z.id)
        ∧ ∀ y ∈ consecutive inner next later id parts, id ≤ y.id := by
    induction parts generalizing next id with
    | nil => exact ⟨.nil, by simp [consecutive]⟩
    | cons part parts ih =>
      obtain ⟨role, t⟩ := part
      obtain ⟨hpairwise, hle⟩ := ih (if role = .item then later else next) (id + t.size)
      rw [consecutive]
      refine ⟨List.pairwise_cons.mpr ⟨hle, hpairwise⟩, List.forall_mem_cons.mpr ⟨Nat.le_refl _, ?_⟩⟩
      exact fun y hy => Nat.le_trans (Nat.le_add_right _ _) (hle y hy)
  exact (hconsecutive _ _ _ _ _).1

/-- A part ends where its tree ends, or before. -/
theorem end_le_of_mem_parts {x y : Occurrence} (h : y ∈ x.parts) :
    y.id + y.tree.size ≤ x.id + x.tree.size := by
  have hsub : y.nodes.map (·.id) ⊆ x.nodes.map (·.id) :=
    List.map_subset _ fun n hn => mem_nodes_iff.mpr (.inr ⟨y, h, hn⟩)
  have hlast : y.id + y.tree.size - 1 ∈ y.nodes.map (·.id) := by
    have hpos : 0 < y.tree.size := by
      obtain ⟨around, role, id, label, parts⟩ := y
      simp [Tree.size]
    rw [map_id_nodes, List.mem_range'_1]
    lia
  have hrange := hsub hlast
  rw [map_id_nodes, List.mem_range'_1] at hrange
  lia

/-! ## Where scopes and functions lie -/

/-- The parts of a function stand in its scope. -/
theorem scopes_of_function {x y : Occurrence} (h : y ∈ x.parts) (hx : x.label.kind = .function) :
    y.around.scopes = x.id :: x.around.scopes := by
  have hopening : x.label.opening x.around = .everything := by simp [Label.opening, hx]
  rw [around_eq_of_mem_parts h, later, inner, Surroundings.later, Surroundings.inner, hopening]
  split <;> rfl

/-- The scopes open at a part are those around the node and perhaps its own. -/
theorem scopes_of_mem_parts {x y : Occurrence} (h : y ∈ x.parts) :
    y.around.scopes = x.id :: x.around.scopes ∨ y.around.scopes = x.around.scopes := by
  rw [around_eq_of_mem_parts h, later, inner, Surroundings.later, Surroundings.inner]
  split
  · split
    · exact .inr rfl
    · exact .inl rfl
  · split
    · exact .inl rfl
    · exact .inr rfl

/-- A part is enclosed by the same function as the node, unless the node is a function. -/
theorem func_of_mem_parts {x y : Occurrence} (h : y ∈ x.parts) :
    y.around.func = if x.label.kind = .function then some x.id else x.around.func := by
  obtain ⟨scopes, haround⟩ := around_of_mem_parts h
  rw [haround]
  rfl

/-- A part has the same hoisting scope as the node, unless the node is a function or a program. -/
theorem hoist_of_mem_parts {x y : Occurrence} (h : y ∈ x.parts) :
    y.around.hoist
      = if x.label.kind = .function ∨ x.label.kind = .program then some x.id else x.around.hoist := by
  obtain ⟨scopes, haround⟩ := around_of_mem_parts h
  rw [haround]
  rfl

/-- Declarations at `x` may belong to the scope: it is the innermost one there, or the one for hoisted
names. -/
def Sees (x : Occurrence) (scope : NodeId) : Prop :=
  x.around.scopes.head? = some scope ∨ x.around.hoist = some scope

/-- A scope that a part sees belongs to the node or is seen by it. -/
theorem Sees.of_part {x y : Occurrence} (h : y ∈ x.parts) {scope : NodeId} (hscope : y.Sees scope) :
    scope = x.id ∨ x.Sees scope := by
  rcases hscope with hscope | hscope
  · rcases scopes_of_mem_parts h with hscopes | hscopes <;> rw [hscopes] at hscope
    · exact .inl (Option.some.inj hscope).symm
    · exact .inr (.inl hscope)
  · rw [hoist_of_mem_parts h] at hscope
    split at hscope
    · exact .inl (Option.some.inj hscope).symm
    · exact .inr (.inr hscope)

/-- The parts of a function see its scope only. -/
theorem Sees.of_function {x y : Occurrence} (h : y ∈ x.parts) (hx : x.label.kind = .function)
    {scope : NodeId} (hscope : y.Sees scope) : scope = x.id := by
  rcases hscope with hscope | hscope
  · rw [scopes_of_function h hx] at hscope
    exact (Option.some.inj hscope).symm
  · rw [hoist_of_mem_parts h, if_pos (.inl hx)] at hscope
    exact (Option.some.inj hscope).symm

/-- The functions that name themselves are those that are not declared. -/
theorem namesItself_iff {x : Occurrence} :
    x.node.namesItself = true ↔ x.label.kind = .function ∧ x.label.declared = false := by
  simp [Node.namesItself]

/-- A node declares its name in a scope that it sees, unless it names itself. -/
theorem sees_of_declaredIn {x : Occurrence} {scope : NodeId} (h : x.node.declaredIn = some scope) :
    x.node.namesItself = false ∧ x.Sees scope ∨ x.node.namesItself = true ∧ scope = x.id := by
  rw [node_declaredIn, Label.declaresIn] at h
  rw [Node.namesItself, node_toLabel]
  split at h
  · cases h
  · split at h
    · next hkind =>
      refine .inl ⟨by simp [hkind], ?_⟩
      split at h
      · exact .inr h
      · exact .inl h
    · next hkind => exact .inl ⟨by simp [hkind], .inl h⟩
    · next hkind =>
      split at h
      · next hdeclared => exact .inl ⟨by simp [hkind, hdeclared], .inr h⟩
      · next hdeclared => exact .inr ⟨by simp [hkind, hdeclared], (Option.some.inj h).symm⟩
    · cases h

/-- What a tree declares belongs to a scope that the tree sees or to one inside it. -/
theorem scope_of_mem_nodes {x : Occurrence} {n : Node} (h : n ∈ x.nodes) {scope : NodeId}
    (hscope : n.declaredIn = some scope) :
    x.Sees scope ∨ x.id ≤ scope ∧ scope < x.id + x.tree.size := by
  induction x using induction with
  | h x ih =>
    have hown : x.id ≤ x.id ∧ x.id < x.id + x.tree.size := by
      have hroot := id_range_of_mem_nodes (mem_nodes_iff.mpr (.inl rfl) : x.node ∈ x.nodes)
      rwa [node_id] at hroot
    rcases mem_nodes_iff.mp h with rfl | ⟨y, hy, hn⟩
    · rcases sees_of_declaredIn hscope with ⟨-, hsees⟩ | ⟨-, rfl⟩
      · exact .inl hsees
      · exact .inr hown
    · rcases ih y hy hn with hsees | ⟨hle, hlt⟩
      · exact (hsees.of_part hy).elim (fun h => .inr (h ▸ hown)) .inl
      · have hid := id_lt_of_mem_parts hy
        have hend := end_le_of_mem_parts hy
        exact .inr ⟨by lia, by lia⟩

/-- What a tree returns is returned by the function around the tree or by one inside it. -/
theorem func_of_mem_nodes {x : Occurrence} {n : Node} (h : n ∈ x.nodes) :
    n.func = x.around.func ∨ ∃ fn, n.func = some fn ∧ x.id ≤ fn := by
  induction x using induction with
  | h x ih =>
    rcases mem_nodes_iff.mp h with rfl | ⟨y, hy, hn⟩
    · exact .inl x.node_func
    · have hid := id_lt_of_mem_parts hy
      rcases ih y hy hn with hfunc | ⟨fn, hfunc, hle⟩
      · rw [func_of_mem_parts hy] at hfunc
        split at hfunc
        · exact .inr ⟨x.id, hfunc, Nat.le_refl _⟩
        · exact .inl hfunc
      · exact .inr ⟨fn, hfunc, by lia⟩

/-- What is declared or returned in a contained tree belongs to something inside it. -/
theorem inside_of_contained {x : Occurrence} (hx : x.tree.Contained) {n : Node} (h : n ∈ x.nodes) :
    (∀ scope, n.declaredIn = some scope → x.id ≤ scope)
      ∧ (n.kind = .ret → ∃ fn, n.func = some fn ∧ x.id ≤ fn) := by
  induction x using induction with
  | h x ih =>
    have hlabel : x.label.kind = .function ∧ x.label.declared = false
        ∨ (x.label.kind ≠ .function ∧ x.label.kind ≠ .variable ∧ x.label.kind ≠ .parameter
          ∧ x.label.kind ≠ .ret) ∧ Tree.ContainedParts x.tree.parts := by
      obtain ⟨around, role, id, label, parts⟩ := x
      exact (Tree.contained_node label).mp hx
    rcases hlabel with ⟨hkind, hdeclared⟩ | ⟨hkind, hparts⟩
    -- A function expression declares its name, its parameters and what is hoisted inside itself, and what
    -- stands in it returns from it or from something inside.
    · rcases mem_nodes_iff.mp h with rfl | ⟨y, hy, hn⟩
      · simp [Label.declaresIn, hkind, hdeclared]
      · have hid := id_lt_of_mem_parts hy
        constructor
        · intro scope hscope
          rcases scope_of_mem_nodes hn hscope with hsees | ⟨hle, -⟩
          · exact Nat.le_of_eq (hsees.of_function hy hkind).symm
          · lia
        · intro _
          rcases func_of_mem_nodes hn with hfunc | ⟨fn, hfunc, hle⟩
          · exact ⟨x.id, by rw [hfunc, func_of_mem_parts hy, if_pos hkind], Nat.le_refl _⟩
          · exact ⟨fn, hfunc, by lia⟩
    -- Anything else declares nothing, so it comes down to the parts.
    · rcases mem_nodes_iff.mp h with rfl | ⟨y, hy, hn⟩
      · simp [Label.declaresIn, hkind]
      · have hid := id_lt_of_mem_parts hy
        obtain ⟨hscope, hret⟩ :=
          ih y hy (Tree.containedParts_iff.mp hparts _ (mem_parts hy)) hn
        refine ⟨fun scope h => Nat.le_trans (Nat.le_of_lt hid) (hscope scope h), fun h => ?_⟩
        obtain ⟨fn, hfunc, hle⟩ := hret h
        exact ⟨fn, hfunc, by lia⟩

/-- What stands in a return statement or in a parameter is contained. -/
theorem contained_of_mem_parts {x y : Occurrence} {parent : Option Kind}
    (hall : x.tree.All Tree.Proper parent)
    (hx : x.label.kind = .ret ∨ x.label.kind = .parameter) (hy : y ∈ x.parts) :
    y.tree.Contained := by
  have hshape : Tree.ContainedParts x.tree.parts := by
    have hshape := hall.root.1
    rcases hx with hx | hx <;> rw [hx] at hshape <;> exact (hshape : _ ∧ _).2
  exact Tree.containedParts_iff.mp hshape _ (mem_parts hy)

/-! ## What a trace lists -/

/-- What is picked from a trace is picked from the root and from the parts in turn. -/
theorem filterMap_trace (x : Occurrence) {f : Event → Option Node} (h : ∀ n, f (.adds n) = none) :
    x.trace.filterMap f = x.node.entering.filterMap f
      ++ x.parts.flatMap (fun y => (x.node.approaching y.role).filterMap f ++ y.trace.filterMap f)
      ++ x.node.leaving.filterMap f := by
  rw [trace_eq]
  simp only [List.filterMap_cons, h, List.filterMap_append, List.filterMap_flatMap]

/-- An identifier is left for later before those in its parts. -/
theorem referred_eq (x : Occurrence) : x.referred
    = (if x.label.kind = .identifier then [x.node] else []) ++ x.parts.flatMap referred := by
  have happroaching (role : Role) : (x.node.approaching role).filterMap Event.referred? = [] := by
    rw [Node.approaching]
    split <;> rfl
  have hleaving : x.node.leaving.filterMap Event.referred? = [] := by
    rw [Node.leaving]
    split <;> rfl
  rw [referred, filterMap_trace x fun _ => rfl]
  simp only [happroaching, hleaving, List.nil_append, List.append_nil]
  congr 1
  rw [Node.entering, node_toLabel]
  split
  · rfl
  · split <;> rfl

/-- A return statement is listed after those in its parts. -/
theorem returned_eq (x : Occurrence) : x.returned
    = x.parts.flatMap returned ++ (if x.label.kind = .ret then [x.node] else []) := by
  have hentering : x.node.entering.filterMap Event.returned? = [] := by
    rw [Node.entering]
    split
    · rfl
    · split <;> rfl
  have happroaching (role : Role) : (x.node.approaching role).filterMap Event.returned? = [] := by
    rw [Node.approaching]
    split <;> rfl
  rw [returned, filterMap_trace x fun _ => rfl]
  simp only [hentering, happroaching, List.nil_append]
  congr 1
  rw [Node.leaving, node_toLabel]
  split <;> rfl

/-- What an occurrence declares is what is declared on entering it and what its parts declare, each after
its approach. -/
theorem declared_eq_parts (x : Occurrence) : x.declared = x.node.entering.filterMap Event.declared?
    ++ x.parts.flatMap fun y => (x.node.approaching y.role).filterMap Event.declared? ++ y.declared := by
  have hleaving : x.node.leaving.filterMap Event.declared? = [] := by
    rw [Node.leaving]
    split <;> rfl
  rw [declared, filterMap_trace x fun _ => rfl, hleaving, List.append_nil]
  rfl

/-- A node declares its name before its parts do, unless it names itself. -/
theorem declared_eq {x : Occurrence} (h : x.node.namesItself = false) : x.declared
    = (if x.label.kind = .identifier then [] else [x.node]) ++ x.parts.flatMap declared := by
  have happroaching (role : Role) : (x.node.approaching role).filterMap Event.declared? = [] := by
    simp [Node.approaching, h]
  rw [declared_eq_parts]
  simp only [happroaching, List.nil_append]
  congr 1
  rw [Node.entering, h, node_toLabel]
  split <;> rfl

/-- A function that names itself does so after its parameters and before its body. -/
theorem declared_eq_of_namesItself {x : Occurrence} (h : x.node.namesItself = true)
    {parameters : List Occurrence} {body : Occurrence} (hparts : x.parts = parameters ++ [body])
    (hparameters : ∀ y ∈ parameters, y.role = .item) (hbody : body.role = .expr) :
    x.declared = parameters.flatMap declared ++ x.node :: body.declared := by
  have hkind : x.node.kind ≠ .identifier := by simp [(namesItself_iff.mp h).1]
  have hentering : x.node.entering = [] := by rw [Node.entering, if_neg hkind, if_pos h]
  have hitems : parameters.flatMap (fun y =>
      (x.node.approaching y.role).filterMap Event.declared? ++ y.declared)
        = parameters.flatMap declared :=
    List.flatMap_congr fun y hy => by simp [Node.approaching, hparameters y hy]
  rw [declared_eq_parts, hparts, List.flatMap_append, hitems, hentering]
  simp [Node.approaching, hbody, h, Event.declared?]

/-- The parts of a function are its parameters and then its body. -/
theorem parts_of_function {x : Occurrence} {parent : Option Kind}
    (hall : x.tree.All Tree.Proper parent) (hx : x.label.kind = .function) :
    ∃ parameters body, x.parts = parameters ++ [body]
      ∧ (∀ y ∈ parameters, y.role = .item ∧ y.label.kind = .parameter)
      ∧ body.role = .expr ∧ body.label.kind ≠ .parameter := by
  have hshape := hall.root.1
  rw [hx] at hshape
  obtain ⟨ts, t, hparts, hkinds, hkind⟩ := (hshape : Tree.ParametersBody x.tree.parts)
  rw [← map_parts] at hparts
  obtain ⟨parameters, bodies, hsplit, hparameters, hbodies⟩ := List.map_eq_append_iff.mp hparts
  obtain ⟨body, rfl, hbody⟩ := List.map_eq_singleton_iff.mp hbodies
  obtain ⟨hrole, rfl⟩ := Prod.mk.inj hbody
  refine ⟨parameters, body, hsplit, ?_, hrole, hkind⟩
  intro y hy
  have hitem : (y.role, y.tree) ∈ Tree.items ts := by
    rw [← hparameters]
    exact List.mem_map_of_mem hy
  obtain ⟨u, hu, heq⟩ := List.mem_map.mp hitem
  obtain ⟨hrole, rfl⟩ := Prod.mk.inj heq
  exact ⟨hrole.symm, hkinds _ hu⟩

/-- Exactly the return statements are listed. -/
theorem mem_returned_iff {x : Occurrence} {n : Node} :
    n ∈ x.returned ↔ n ∈ x.nodes ∧ n.kind = .ret := by
  induction x using induction with
  | h x ih =>
    have hparts : n ∈ x.parts.flatMap returned ↔ (∃ y ∈ x.parts, n ∈ y.nodes) ∧ n.kind = .ret := by
      rw [List.mem_flatMap]
      constructor
      · rintro ⟨y, hy, hn⟩
        obtain ⟨hn, hkind⟩ := (ih y hy).mp hn
        exact ⟨⟨y, hy, hn⟩, hkind⟩
      · rintro ⟨⟨y, hy, hn⟩, hkind⟩
        exact ⟨y, hy, (ih y hy).mpr ⟨hn, hkind⟩⟩
    have hroot : (n ∈ if x.label.kind = .ret then [x.node] else []) ↔ n = x.node ∧ n.kind = .ret := by
      by_cases hkind : x.label.kind = .ret
      · rw [if_pos hkind, List.mem_singleton]
        exact ⟨fun h => ⟨h, by rw [h, node_toLabel, hkind]⟩, And.left⟩
      · rw [if_neg hkind]
        refine ⟨fun h => absurd h List.not_mem_nil, ?_⟩
        rintro ⟨rfl, h⟩
        rw [node_toLabel] at h
        exact absurd h hkind
    rw [returned_eq, List.mem_append, hparts, hroot, mem_nodes_iff, or_and_right, or_comm]

/-- The identifiers are left for later in the order of their numbers. -/
theorem referred_eq_filter (x : Occurrence) : x.referred = x.nodes.filter (·.kind = .identifier) := by
  induction x using induction with
  | h x ih =>
    rw [referred_eq, nodes_eq, List.filter_cons, node_toLabel, List.filter_flatMap,
      List.flatMap_congr ih]
    by_cases hkind : x.label.kind = .identifier <;> simp [hkind]

/-- Only nodes of the tree are declared. -/
theorem mem_nodes_of_mem_declared {x : Occurrence} {n : Node} (h : n ∈ x.declared) : n ∈ x.nodes := by
  induction x using induction with
  | h x ih =>
    have hentering : ∀ m ∈ x.node.entering.filterMap Event.declared?, m = x.node := by
      rw [Node.entering]
      split
      · simp [Event.declared?]
      · split <;> simp [Event.declared?]
    have happroaching (role : Role) :
        ∀ m ∈ (x.node.approaching role).filterMap Event.declared?, m = x.node := by
      rw [Node.approaching]
      split <;> simp [Event.declared?]
    rw [mem_nodes_iff]
    rw [declared_eq_parts] at h
    rcases List.mem_append.mp h with h | h
    · exact .inl (hentering n h)
    · obtain ⟨y, hy, h⟩ := List.mem_flatMap.mp h
      rcases List.mem_append.mp h with h | h
      · exact .inl (happroaching y.role n h)
      · exact .inr ⟨y, hy, ih y hy h⟩

/-- All nodes of a proper tree that declare a name are declared. -/
theorem mem_declared {x : Occurrence} {parent : Option Kind} (hall : x.tree.All Tree.Proper parent)
    {n : Node} (h : n ∈ x.nodes) {scope : NodeId} (hscope : n.declaredIn = some scope) :
    n ∈ x.declared := by
  induction x using induction generalizing parent with
  | h x ih =>
    have hparts (y : Occurrence) (hy : y ∈ x.parts) (hn : n ∈ y.nodes) : n ∈ y.declared :=
      ih y hy (hall.part (mem_parts hy)) hn
    by_cases hitself : x.node.namesItself = true
    -- Of a function with a name of its own, the parameters are declared before it.
    · obtain ⟨parameters, body, hsplit, hparameters, hbody, -⟩ :=
        parts_of_function hall (namesItself_iff.mp hitself).1
      rw [declared_eq_of_namesItself hitself hsplit (fun y hy => (hparameters y hy).1) hbody]
      rcases mem_nodes_iff.mp h with rfl | ⟨y, hy, hn⟩
      · simp
      · have hdeclared := hparts y hy hn
        rw [hsplit] at hy
        rcases List.mem_append.mp hy with hy | hy
        · exact List.mem_append_left _ (List.mem_flatMap.mpr ⟨y, hy, hdeclared⟩)
        · obtain rfl := List.mem_singleton.mp hy
          exact List.mem_append_right _ (List.mem_cons_of_mem _ hdeclared)
    · rw [declared_eq (by simpa using hitself)]
      rcases mem_nodes_iff.mp h with rfl | ⟨y, hy, hn⟩
      · have hkind : x.label.kind ≠ .identifier := by
          intro hkind
          simp [Label.declaresIn, hkind] at hscope
        simp [hkind]
      · exact List.mem_append_right _ (List.mem_flatMap.mpr ⟨y, hy, hparts y hy hn⟩)

/-! ## In what order -/

/-- What an occurrence sees or belongs to was there before it. -/
structure Outer (x : Occurrence) : Prop where
  sees_lt : ∀ scope, x.Sees scope → scope < x.id
  func_lt : ∀ fn, x.around.func = some fn → fn < x.id

/-- A part of an occurrence whose scopes lie outside it has its scopes outside it too. -/
theorem Outer.part {x y : Occurrence} (h : x.Outer) (hy : y ∈ x.parts) : y.Outer where
  sees_lt := by
    intro scope hscope
    have hid := id_lt_of_mem_parts hy
    rcases hscope.of_part hy with rfl | hscope
    · exact hid
    · exact Nat.lt_trans (h.sees_lt scope hscope) hid
  func_lt := by
    intro fn hfn
    have hid := id_lt_of_mem_parts hy
    rw [func_of_mem_parts hy] at hfn
    split at hfn
    · rwa [← Option.some.inj hfn]
    · exact Nat.lt_trans (h.func_lt fn hfn) hid

/-- The returns of one function are listed in the order of their numbers. -/
theorem pairwise_returned {x : Occurrence} {parent : Option Kind}
    (hall : x.tree.All Tree.Proper parent) (houter : x.Outer) :
    x.returned.Pairwise fun n m => n.func = m.func → n.id < m.id := by
  induction x using induction generalizing parent with
  | h x ih =>
    have hparts : (x.parts.flatMap returned).Pairwise fun n m => n.func = m.func → n.id < m.id := by
      rw [List.pairwise_flatMap]
      refine ⟨fun y hy => ih y hy (hall.part (mem_parts hy)) (houter.part hy), ?_⟩
      refine x.pairwise_parts.imp ?_
      intro y z hyz n hn m hm _
      have hn := id_range_of_mem_nodes (mem_returned_iff.mp hn).1
      have hm := id_range_of_mem_nodes (mem_returned_iff.mp hm).1
      lia
    rw [returned_eq]
    split
    · next hkind =>
      -- A return inside the argument belongs to a function in there.
      refine List.pairwise_append.mpr ⟨hparts, List.pairwise_singleton _ _, ?_⟩
      intro n hn m hm hfunc
      obtain rfl := List.mem_singleton.mp hm
      obtain ⟨y, hy, hn⟩ := List.mem_flatMap.mp hn
      obtain ⟨hn, hret⟩ := mem_returned_iff.mp hn
      obtain ⟨fn, hfn, hle⟩ :=
        (inside_of_contained (contained_of_mem_parts hall (.inl hkind) hy) hn).2 hret
      rw [hfn, node_func] at hfunc
      have hlt := houter.func_lt fn hfunc.symm
      have hid := id_lt_of_mem_parts hy
      lia
    · rwa [List.append_nil]

/-- A parameter that is not the root declares its name in a scope inside the tree. -/
theorem scope_of_parameter {x : Occurrence} {parent : Option Kind}
    (hall : x.tree.All Tree.Proper parent) {n : Node} (h : n ∈ x.nodes) (hkind : n.kind = .parameter)
    {scope : NodeId} (hscope : n.declaredIn = some scope) : n = x.node ∨ x.id ≤ scope := by
  induction x using induction generalizing parent with
  | h x ih =>
    rcases mem_nodes_iff.mp h with rfl | ⟨y, hy, hn⟩
    · exact .inl rfl
    · have hall' := hall.part (mem_parts hy)
      right
      rcases ih y hy hall' hn with rfl | hle
      · rw [node_toLabel] at hkind
        have hfunction := Option.some.inj (hall'.root.2.2 hkind)
        rcases sees_of_declaredIn hscope with ⟨-, hsees⟩ | ⟨hitself, -⟩
        · exact Nat.le_of_eq (hsees.of_function hy hfunction).symm
        · rw [namesItself_iff, hkind] at hitself
          exact absurd hitself.1 (by decide)
      · exact Nat.le_trans (Nat.le_of_lt (id_lt_of_mem_parts hy)) hle

/-- What is declared in a tree for a scope outside of it comes last in that scope, unless the tree is a
parameter. -/
theorem bindingRank_of_lt {x : Occurrence} {parent : Option Kind}
    (hall : x.tree.All Tree.Proper parent) {n : Node} (h : n ∈ x.nodes) {scope : NodeId}
    (hscope : n.declaredIn = some scope) (hlt : scope < x.id) :
    n.bindingRank scope = 2 ∨ n = x.node ∧ x.label.kind = .parameter := by
  by_cases hkind : n.kind = .parameter
  · rcases scope_of_parameter hall h hkind hscope with rfl | hle
    · exact .inr ⟨rfl, by rwa [node_toLabel] at hkind⟩
    · exact absurd hlt (Nat.not_lt.mpr hle)
  · have hid := (id_range_of_mem_nodes h).1
    have hne : n.id ≠ scope := Nat.ne_of_gt (Nat.lt_of_lt_of_le hlt hid)
    exact .inl (by rw [Node.bindingRank, if_neg hkind, if_neg hne])

/-- A parameter declares nothing outside of it but its own name. -/
theorem eq_node_of_parameter {x : Occurrence} {parent : Option Kind}
    (hall : x.tree.All Tree.Proper parent) (hkind : x.label.kind = .parameter) {n : Node}
    (h : n ∈ x.nodes) {scope : NodeId} (hscope : n.declaredIn = some scope) (hlt : scope < x.id) :
    n = x.node := by
  rcases mem_nodes_iff.mp h with rfl | ⟨y, hy, hn⟩
  · rfl
  · have hcontained := contained_of_mem_parts hall (.inr hkind) hy
    have hle := (inside_of_contained hcontained hn).1 scope hscope
    have hid := id_lt_of_mem_parts hy
    lia

/-- Only functions have parameters as parts. -/
theorem function_of_parameter {x y : Occurrence} {parent : Option Kind}
    (hall : x.tree.All Tree.Proper parent) (hy : y ∈ x.parts) (hkind : y.label.kind = .parameter) :
    x.label.kind = .function :=
  Option.some.inj ((hall.part (mem_parts hy)).root.2.2 hkind)

/-- Before a parameter come only parameters. -/
theorem pairwise_parameters {x : Occurrence} {parent : Option Kind}
    (hall : x.tree.All Tree.Proper parent) :
    x.parts.Pairwise fun y z => z.label.kind = .parameter → y.label.kind = .parameter := by
  by_cases hkind : x.label.kind = .function
  · obtain ⟨parameters, body, hsplit, hparameters, -, hbody⟩ := parts_of_function hall hkind
    rw [hsplit, List.pairwise_append]
    refine ⟨List.pairwise_of_forall_mem_list fun y hy _ _ _ => (hparameters y hy).2,
      List.pairwise_singleton _ _, ?_⟩
    exact fun y hy _ _ _ => (hparameters y hy).2
  · refine List.pairwise_of_forall_mem_list fun _ _ z hz hz' => ?_
    exact absurd (function_of_parameter hall hz hz') hkind

/-- What a part declares precedes what a later part declares in the same scope. -/
theorem inTurn_of_parts {x y z : Occurrence} {parent : Option Kind}
    (hall : x.tree.All Tree.Proper parent) (houter : x.Outer) (hy : y ∈ x.parts) (hz : z ∈ x.parts)
    (hyz : y.id + y.tree.size ≤ z.id)
    (hkinds : z.label.kind = .parameter → y.label.kind = .parameter)
    {n m : Node} (hn : n ∈ y.nodes) (hm : m ∈ z.nodes) : n.InTurn m := by
  intro scope hscope hscope'
  have hrange := id_range_of_mem_nodes hn
  have hrange' := id_range_of_mem_nodes hm
  have hlt : scope < z.id := by
    rcases scope_of_mem_nodes hn hscope with hsees | hinside
    · have hseen := (houter.part hy).sees_lt scope hsees
      lia
    · lia
  have hid : n.id < m.id := by lia
  rcases bindingRank_of_lt (hall.part (mem_parts hz)) hm hscope' hlt with hlast | ⟨rfl, hkind⟩
  · exact Node.precedes_of_last hlast hid
  · -- Both are parameters of `x`, which is a function.
    have hfunction := function_of_parameter hall hz hkind
    have hitself : z.node.namesItself ≠ true := by
      rw [Ne, namesItself_iff, hkind]
      exact fun h => absurd h.1 (by decide)
    have hown : scope = x.id := by
      rcases sees_of_declaredIn hscope' with ⟨-, hsees⟩ | ⟨h, -⟩
      · exact hsees.of_function hz hfunction
      · exact absurd h hitself
    obtain rfl := eq_node_of_parameter (hall.part (mem_parts hy)) (hkinds hkind) hn hscope
      (hown ▸ id_lt_of_mem_parts hy)
    refine .inr ⟨?_, hid⟩
    simp [Node.bindingRank, hkinds hkind, hkind]

/-- A node that does not name itself precedes what its parts declare. -/
theorem node_inTurn {x y : Occurrence} {parent : Option Kind} (hall : x.tree.All Tree.Proper parent)
    (houter : x.Outer) (hitself : x.node.namesItself = false) (hy : y ∈ x.parts) {n : Node}
    (hn : n ∈ y.nodes) : x.node.InTurn n := by
  intro scope hscope hscope'
  have hlt : scope < x.id := by
    rcases sees_of_declaredIn hscope with ⟨-, hsees⟩ | ⟨h, -⟩
    · exact houter.sees_lt scope hsees
    · simp [hitself] at h
  have hid := id_lt_of_mem_parts hy
  have hrange := id_range_of_mem_nodes hn
  rcases bindingRank_of_lt (hall.part (mem_parts hy)) hn hscope' (by lia) with hlast | ⟨rfl, hkind⟩
  · exact Node.precedes_of_last hlast (by rw [node_id]; lia)
  · rcases sees_of_declaredIn hscope' with ⟨-, hsees⟩ | ⟨h, -⟩
    · have hown := hsees.of_function hy (function_of_parameter hall hy hkind)
      lia
    · rw [namesItself_iff, hkind] at h
      exact absurd h.1 (by decide)

/-- A function that names itself does so in its own scope. -/
theorem scope_of_namesItself {x : Occurrence} (h : x.node.namesItself = true) {scope : NodeId}
    (hscope : x.node.declaredIn = some scope) : scope = x.id ∧ x.node.bindingRank scope = 1 := by
  have hown : scope = x.id := by
    rcases sees_of_declaredIn hscope with ⟨h', -⟩ | ⟨-, hown⟩
    · simp [h] at h'
    · exact hown
  exact ⟨hown, by simp [Node.bindingRank, (namesItself_iff.mp h).1, hown]⟩

/-- Parameters precede the function that names itself. -/
theorem parameter_inTurn_node {x y : Occurrence} {parent : Option Kind}
    (hall : x.tree.All Tree.Proper parent) (hitself : x.node.namesItself = true) (hy : y ∈ x.parts)
    (hkind : y.label.kind = .parameter) {n : Node} (hn : n ∈ y.nodes) : n.InTurn x.node := by
  intro scope hscope hscope'
  obtain ⟨rfl, hrank⟩ := scope_of_namesItself hitself hscope'
  obtain rfl := eq_node_of_parameter (hall.part (mem_parts hy)) hkind hn hscope
    (id_lt_of_mem_parts hy)
  left
  rw [hrank]
  simp [Node.bindingRank, hkind]

/-- A function that names itself precedes what its body declares. -/
theorem node_inTurn_body {x y : Occurrence} {parent : Option Kind}
    (hall : x.tree.All Tree.Proper parent) (hitself : x.node.namesItself = true) (hy : y ∈ x.parts)
    (hkind : y.label.kind ≠ .parameter) {n : Node} (hn : n ∈ y.nodes) : x.node.InTurn n := by
  intro scope hscope hscope'
  obtain ⟨rfl, hrank⟩ := scope_of_namesItself hitself hscope
  rcases bindingRank_of_lt (hall.part (mem_parts hy)) hn hscope' (id_lt_of_mem_parts hy)
    with hlast | ⟨-, h⟩
  · left
    rw [hrank, hlast]
    decide
  · exact absurd h hkind

/-- The declarations of one scope take effect in the order of `Node.Precedes`. -/
theorem pairwise_declared {x : Occurrence} {parent : Option Kind}
    (hall : x.tree.All Tree.Proper parent) (houter : x.Outer) : x.declared.Pairwise Node.InTurn := by
  induction x using induction generalizing parent with
  | h x ih =>
    have hparts : (x.parts.flatMap declared).Pairwise Node.InTurn := by
      rw [List.pairwise_flatMap]
      refine ⟨fun y hy => ih y hy (hall.part (mem_parts hy)) (houter.part hy), ?_⟩
      refine (x.pairwise_parts.and (pairwise_parameters hall)).imp_of_mem ?_
      intro y z hy hz h n hn m hm
      exact inTurn_of_parts hall houter hy hz h.1 h.2 (mem_nodes_of_mem_declared hn)
        (mem_nodes_of_mem_declared hm)
    by_cases hitself : x.node.namesItself = true
    -- The declaration of the function stands between those of its parameters and those of its body.
    · obtain ⟨parameters, body, hsplit, hparameters, hrole, hbody⟩ :=
        parts_of_function hall (namesItself_iff.mp hitself).1
      have hmem : (∀ y ∈ parameters, y ∈ x.parts) ∧ body ∈ x.parts := by simp +contextual [hsplit]
      rw [hsplit, List.flatMap_append, List.flatMap_singleton, List.pairwise_append] at hparts
      obtain ⟨hfirst, hlast, hbetween⟩ := hparts
      rw [declared_eq_of_namesItself hitself hsplit (fun y hy => (hparameters y hy).1) hrole,
        List.pairwise_append, List.pairwise_cons]
      refine ⟨hfirst, ⟨fun n hn => ?_, hlast⟩, fun n hn m hm => ?_⟩
      · exact node_inTurn_body hall hitself hmem.2 hbody (mem_nodes_of_mem_declared hn)
      · rcases List.mem_cons.mp hm with rfl | hm
        · obtain ⟨y, hy, hn⟩ := List.mem_flatMap.mp hn
          exact parameter_inTurn_node hall hitself (hmem.1 y hy) (hparameters y hy).2
            (mem_nodes_of_mem_declared hn)
        · exact hbetween n hn m hm
    · rw [declared_eq (by simpa using hitself)]
      split
      · exact hparts
      · refine List.pairwise_cons.mpr ⟨fun n hn => ?_, hparts⟩
        obtain ⟨y, hy, hn⟩ := List.mem_flatMap.mp hn
        exact node_inTurn hall houter (by simpa using hitself) hy (mem_nodes_of_mem_declared hn)

end Occurrence

end LayoutInference
