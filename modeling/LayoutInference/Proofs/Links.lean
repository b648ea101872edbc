import Mathlib
import LayoutInference.Proofs.Tables

/-!
# Links

When a script is lowered, its names are bound and its identifiers are known, and linking takes each
identifier to what it names. Here the tables of the finished program are read off its nodes.

* A name is bound in a scope by the first of the nodes that declare it there
  (`Program.exists_first_of_bound`, `Program.bound_eq_none_iff`).
* An identifier belongs to what binds its name in the innermost scope that does
  (`Program.decl_of_identifier`), a declaration to what binds its name in its own scope
  (`Program.decl_of_declaredIn`).
* The identifiers are listed under what they belong to, the returns under their functions
  (`Program.referred_eq`, `Program.returned_eq`).

What an identifier is linked to is never an identifier or an alias itself, so the order of linking does
not matter (`Lowering.foldl_link`).
-/

namespace LayoutInference

/-! ## One identifier after the other -/

namespace Lowering

/-- What the name of the node numbered `id` stands for. -/
def found (st : Lowering) (id : NodeId) : Option NodeId :=
  (st.nodes[id - 1]?).bind fun n => st.lookup n.scopes n.name

/-- Linking one identifier whose name stands for something that is no alias. -/
theorem link_eq {st : Lowering} {l : Links} {id : NodeId}
    (h : ∀ d, st.found id = some d → l.decls.lookup d = none) : st.link l id = match st.found id with
      | none => l
      | some d => ⟨(id, d) :: l.decls, l.referred.push (d, id)⟩ := by
  have hlink : st.link l id = match st.found id with
      | none => l
      | some d => ⟨(id, (l.decls.lookup d).getD d) :: l.decls,
          l.referred.push ((l.decls.lookup d).getD d, id)⟩ := rfl
  rw [hlink]
  cases hfound : st.found id with
  | none => rfl
  | some d => simp [h d hfound]

/-- Linking adds each identifier under what its name stands for, if nothing that names stand for is an
identifier or an alias. -/
theorem foldl_link {st : Lowering} {ids : List NodeId} {l : Links}
    (h : ∀ id ∈ ids, ∀ d, st.found id = some d → d ∉ ids ∧ l.decls.lookup d = none) :
    (∀ id, (ids.foldl st.link l).decls.lookup id
        = if id ∈ ids then (st.found id).or (l.decls.lookup id) else l.decls.lookup id)
      ∧ (ids.foldl st.link l).referred
        = l.referred ++ (ids.filterMap fun id => (st.found id).map (·, id)).toArray := by
  induction ids generalizing l with
  | nil => simp
  | cons id ids ih =>
    obtain ⟨hid, hids⟩ := List.forall_mem_cons.mp h
    rw [List.foldl_cons, link_eq fun d hd => (hid d hd).2]
    cases hfound : st.found id with
    | none =>
      obtain ⟨hdecls, hreferred⟩ := ih fun i hi d hd =>
        (hids i hi d hd).imp_left fun hnot hmem => hnot (List.mem_cons_of_mem _ hmem)
      refine ⟨fun i => ?_, by simp [hreferred, hfound]⟩
      rw [hdecls]
      by_cases hi : i = id
      · subst hi
        simp [hfound]
      · simp [hi]
    | some d =>
      -- What names stand for is declared, so no identifier that was linked is among it.
      have hrest : ∀ i ∈ ids, ∀ e, st.found i = some e →
          e ∉ ids ∧ ((id, d) :: l.decls).lookup e = none := by
        intro i hi e he
        obtain ⟨hnot, hnone⟩ := hids i hi e he
        have hne : e ≠ id := fun heq => hnot (heq ▸ List.mem_cons_self)
        refine ⟨fun hmem => hnot (List.mem_cons_of_mem _ hmem), ?_⟩
        simp [List.lookup_cons, beq_eq_false_iff_ne.mpr hne, hnone]
      obtain ⟨hdecls, hreferred⟩ := ih (l := ⟨(id, d) :: l.decls, l.referred.push (d, id)⟩) hrest
      refine ⟨fun i => ?_, by simp [hreferred, hfound]⟩
      rw [hdecls]
      by_cases hi : i = id
      · subst hi
        simp [hfound]
      · simp [hi, List.lookup_cons, beq_eq_false_iff_ne.mpr hi]

end Lowering

/-! ## The tables of a script -/

namespace Tree

/-- Nothing surrounds the whole of a tree. -/
theorem whole_outer (tree : Tree) : tree.whole.Outer where
  sees_lt := by simp [Occurrence.Sees, whole]
  func_lt := by simp [whole]

/-- No two nodes of a tree share an id. -/
theorem nodup_ids_whole (tree : Tree) : (tree.whole.nodes.map (·.id)).Nodup := by
  rw [Occurrence.map_id_nodes]
  exact List.nodup_range'

/-- The nodes of a tree are told apart by their numbers. -/
theorem eq_of_mem_whole {tree : Tree} {n m : Node} (hn : n ∈ tree.whole.nodes)
    (hm : m ∈ tree.whole.nodes) (h : n.id = m.id) : n = m :=
  List.inj_on_of_nodup_map tree.nodup_ids_whole hn hm h

/-- Lowering keeps each node at the place of its number. -/
theorem nodes_lowered_of_mem {tree : Tree} {n : Node} (h : n ∈ tree.whole.nodes) :
    tree.lowered.nodes[n.id - 1]? = some n := by
  obtain ⟨i, hi, rfl⟩ := List.getElem_of_mem h
  have hid : (tree.whole.nodes.map (·.id))[i]? = some tree.whole.nodes[i].id := by simp [hi]
  rw [Occurrence.map_id_nodes, List.getElem?_eq_some_iff] at hid
  obtain ⟨_, hid⟩ := hid
  rw [List.getElem_range', Nat.one_mul] at hid
  have hplace : tree.whole.nodes[i].id - 1 = i := by
    rw [← hid]
    exact Nat.add_sub_cancel_left 1 i
  rw [hplace, ← Array.getElem?_toList, nodes_lowered]
  exact List.getElem?_eq_getElem hi

/-- Only variables, parameters and functions declare names. -/
theorem kind_of_declaredIn {tree : Tree} {n : Node} (h : n ∈ tree.whole.nodes) {scope : NodeId}
    (hscope : n.declaredIn = some scope) :
    n.kind = .variable ∨ n.kind = .parameter ∨ n.kind = .function := by
  obtain ⟨y, -, -, rfl⟩ := Occurrence.exists_path h
  rw [Occurrence.node_declaredIn, Label.declaresIn] at hscope
  rw [Occurrence.node_toLabel]
  split at hscope
  · cases hscope
  · split at hscope
    · next hkind => exact .inl hkind
    · next hkind => exact .inr (.inl hkind)
    · next hkind => exact .inr (.inr hkind)
    · cases hscope

/-- An identifier is declared in no scope. -/
theorem declaredIn_identifier {tree : Tree} {n : Node} (h : n ∈ tree.whole.nodes)
    (hkind : n.kind = .identifier) : n.declaredIn = none := by
  rw [Option.eq_none_iff_forall_ne_some]
  intro scope hscope
  have hkinds := kind_of_declaredIn h hscope
  simp [hkind] at hkinds

/-- Names are bound in lowering by the declarations in turn. -/
theorem names_lowered (tree : Tree) :
    tree.lowered.bound = (({} : Lowering).declareAll tree.whole.declared).bound
      ∧ tree.lowered.aliases = (({} : Lowering).declareAll tree.whole.declared).aliases :=
  Lowering.names_follow rfl rfl tree.whole.trace

/-- A name is bound by the first of the declarations. -/
theorem lookup_bound_lowered (tree : Tree) (scope : NodeId) (name : String) :
    tree.lowered.bound.lookup (scope, name)
      = (tree.whole.declared.find? fun n => n.declaredIn = some scope ∧ n.name = name).map (·.id) := by
  rw [tree.names_lowered.1, Lowering.lookup_bound_declareAll]
  rfl

/-- All identifiers are left for later. -/
theorem pending_lowered (tree : Tree) :
    tree.lowered.pending.toList = (tree.whole.nodes.filter (·.kind = .identifier)).map (·.id) := by
  rw [← Occurrence.referred_eq_filter, lowered, Lowering.pending_follow]
  simp
  rfl

end Tree

namespace Script

variable (script : Script)

/-- The declarations of a script take effect in turn. -/
theorem pairwise_declared : script.toTree.whole.declared.Pairwise Node.InTurn :=
  Occurrence.pairwise_declared script.toTree_all script.toTree.whole_outer

variable {script} {n : Node} {scope : NodeId}

/-- A declaration is an alias of what binds its name in its scope, unless that is the declaration
itself. -/
theorem lookup_aliases_of_split (hscope : n.declaredIn = some scope) {before after : List Node}
    (hsplit : script.toTree.whole.declared = before ++ n :: after) :
    script.toTree.lowered.aliases.lookup n.id
      = (before.find? fun m => m.declaredIn = some scope ∧ m.name = n.name).map (·.id) := by
  have hpairwise := script.pairwise_declared
  have hmem : ∀ m ∈ script.toTree.whole.declared, m ∈ script.toTree.whole.nodes :=
    fun m hm => Occurrence.mem_nodes_of_mem_declared hm
  rw [hsplit] at hpairwise hmem
  obtain ⟨-, hafter, hbefore⟩ := List.pairwise_append.mp hpairwise
  have hirrefl : ¬n.InTurn n := fun h => (h scope hscope hscope).asymm (h scope hscope hscope)
  have hne (m : Node) (hm : m ∈ before ++ n :: after) (hid : m.id = n.id) : m = n :=
    Tree.eq_of_mem_whole (hmem m hm) (hmem n (by simp)) hid
  rw [(Tree.names_lowered _).2, hsplit]
  refine Lowering.lookup_aliases_declareAll hscope ?_ ?_
  · intro m hm hid
    obtain rfl := hne m (List.mem_append_left _ hm) hid
    exact hirrefl (hbefore m hm m List.mem_cons_self)
  · intro m hm hid
    obtain rfl := hne m (List.mem_append_right _ (List.mem_cons_of_mem _ hm)) hid
    exact hirrefl ((List.pairwise_cons.mp hafter).1 m hm)

/-- What a declaration belongs to binds its name in its scope. -/
theorem lookup_bound_of_declaredIn (h : n ∈ script.toTree.whole.nodes)
    (hscope : n.declaredIn = some scope) : script.toTree.lowered.bound.lookup (scope, n.name)
      = some ((script.toTree.lowered.aliases.lookup n.id).getD n.id) := by
  have hmem := Occurrence.mem_declared script.toTree_all h hscope
  obtain ⟨before, after, hsplit⟩ := List.append_of_mem hmem
  rw [lookup_aliases_of_split hscope hsplit, Tree.lookup_bound_lowered, hsplit, List.find?_append,
    List.find?_cons_of_pos (by simp [hscope])]
  cases before.find? fun m => m.declaredIn = some scope ∧ m.name = n.name <;> rfl

/-- What binds a name is the first to declare it in its scope, and no alias. -/
theorem first_of_bound {name : String} {id : NodeId}
    (h : script.toTree.lowered.bound.lookup (scope, name) = some id) :
    ∃ d ∈ script.toTree.whole.nodes, d.id = id ∧ d.declaredIn = some scope ∧ d.name = name
      ∧ script.toTree.lowered.aliases.lookup id = none
      ∧ ∀ e ∈ script.toTree.whole.nodes, e.declaredIn = some scope → e.name = name →
        e = d ∨ d.Precedes scope e := by
  rw [Tree.lookup_bound_lowered] at h
  obtain ⟨d, hd, rfl⟩ := Option.map_eq_some_iff.mp h
  obtain ⟨hfirst, before, after, hsplit, hbefore⟩ := List.find?_eq_some_iff_append.mp hd
  obtain ⟨hscope, rfl⟩ := of_decide_eq_true hfirst
  refine ⟨d, Occurrence.mem_nodes_of_mem_declared (List.mem_of_find?_eq_some hd), rfl, hscope, rfl,
    ?_, ?_⟩
  -- No earlier declaration of the name is there, so nothing was made an alias of one.
  · rw [lookup_aliases_of_split hscope hsplit, List.find?_eq_none.mpr, Option.map_none]
    exact fun m hm => by simpa [imp_iff_not_or] using hbefore m hm
  · intro e he hescope hename
    have hpairwise := script.pairwise_declared
    have hmem := Occurrence.mem_declared script.toTree_all he hescope
    rw [hsplit] at hpairwise hmem
    -- Whatever declares the name stands behind the first, since nothing before it does.
    rcases List.mem_append.mp hmem with hmem | hmem
    · have hother := hbefore e hmem
      simp [hescope, hename] at hother
    · rcases List.mem_cons.mp hmem with rfl | hmem
      · exact .inl rfl
      · have hturn := (List.pairwise_cons.mp (List.pairwise_append.mp hpairwise).2.1).1 e hmem
        exact .inr (hturn scope hscope hescope)

/-- What declares no name is no alias. -/
theorem lookup_aliases_eq_none (h : n ∈ script.toTree.whole.nodes) (hscope : n.declaredIn = none) :
    script.toTree.lowered.aliases.lookup n.id = none := by
  rw [(Tree.names_lowered _).2, Lowering.lookup_aliases_declareAll_of_forall]
  · rfl
  · intro m hm hid
    rw [Tree.eq_of_mem_whole (Occurrence.mem_nodes_of_mem_declared hm) h hid, hscope]

/-- What the name of an identifier stands for is neither an identifier nor an alias. -/
theorem found_of_mem_pending (script : Script) : ∀ id ∈ script.toTree.lowered.pending.toList, ∀ d,
    script.toTree.lowered.found id = some d → d ∉ script.toTree.lowered.pending.toList
      ∧ script.toTree.lowered.aliases.lookup d = none := by
  intro id hid d hd
  obtain ⟨n, -, hlookup⟩ := Option.bind_eq_some_iff.mp hd
  obtain ⟨scope, -, hbound⟩ := List.exists_of_findSome?_eq_some hlookup
  obtain ⟨m, hm, rfl, hscope, -, hnone, -⟩ := first_of_bound hbound
  refine ⟨fun hmem => ?_, hnone⟩
  rw [Tree.pending_lowered] at hmem
  obtain ⟨e, he, heid⟩ := List.mem_map.mp hmem
  obtain ⟨he, hkind⟩ := List.mem_filter.mp he
  obtain rfl := Tree.eq_of_mem_whole he hm heid
  rw [Tree.declaredIn_identifier he (of_decide_eq_true hkind)] at hscope
  cases hscope

/-- The links of a script: identifiers are linked to what their names stand for, and aliases remain. -/
theorem lookup_decls (h : n ∈ script.toTree.whole.nodes) :
    script.toTree.lowered.links.decls.lookup n.id
      = if n.kind = .identifier then script.toTree.lowered.lookup n.scopes n.name
        else script.toTree.lowered.aliases.lookup n.id := by
  have hlinks := (Lowering.foldl_link script.found_of_mem_pending (l := ⟨_, #[]⟩)).1 n.id
  rw [Lowering.links, ← Array.foldl_toList, hlinks, Tree.pending_lowered]
  by_cases hkind : n.kind = .identifier
  · have hmem : n.id ∈ (script.toTree.whole.nodes.filter (·.kind = .identifier)).map (·.id) :=
      List.mem_map_of_mem (List.mem_filter.mpr ⟨h, decide_eq_true hkind⟩)
    rw [if_pos hmem, if_pos hkind, Lowering.found, Tree.nodes_lowered_of_mem h, Option.bind_some,
      lookup_aliases_eq_none h (Tree.declaredIn_identifier h hkind), Option.or_none]
  · rw [if_neg, if_neg hkind]
    intro hmem
    obtain ⟨m, hm, hid⟩ := List.mem_map.mp hmem
    obtain ⟨hm, hm'⟩ := List.mem_filter.mp hm
    rw [Tree.eq_of_mem_whole hm h hid] at hm'
    exact hkind (of_decide_eq_true hm')

/-- The identifiers of a script that name something, each under what it names. -/
theorem referred_links (script : Script) : script.toTree.lowered.links.referred.toList
    = (script.toTree.whole.nodes.filter (·.kind = .identifier)).filterMap fun n =>
      (script.toTree.lowered.lookup n.scopes n.name).map (·, n.id) := by
  have hlinks := (Lowering.foldl_link script.found_of_mem_pending (l := ⟨_, #[]⟩)).2
  rw [Lowering.links, ← Array.foldl_toList, hlinks, Tree.pending_lowered, List.filterMap_map]
  simp only [Array.empty_append, List.toList_toArray]
  refine List.filterMap_congr fun n hn => ?_
  have hfound := Tree.nodes_lowered_of_mem (List.mem_of_mem_filter hn)
  rw [Function.comp_apply, Lowering.found, hfound, Option.bind_some]

end Script

/-! ## The tables of a program -/

namespace Program

variable {source : Source} {script : Script} {p : Program} {n : Node} {scope : NodeId} {name : String}

/-- The nodes of a program are those of its tree, linked. -/
theorem mem_nodes_ofTree {tree : Tree} : n ∈ (ofTree source tree).nodes.toList
    ↔ ∃ m ∈ tree.whole.nodes, { m with decl := m.declarationIn tree.lowered.links.decls } = n := by
  rw [nodes_ofTree, List.mem_map]

/-- The tables of a program are those that lowering and linking leave. -/
theorem tables_ofTree (source : Source) (tree : Tree) :
    (ofTree source tree).bound = tree.lowered.bound
      ∧ (ofTree source tree).referred = tree.lowered.links.referred
      ∧ (ofTree source tree).returned = tree.lowered.returned := by
  rw [ofTree_eq]
  exact ⟨rfl, rfl, rfl⟩

/-- What binds a name in a scope is the first to declare it there. -/
theorem exists_first_of_bound (h : ofScript source script = .ok p) {id : NodeId}
    (hbound : p.bound.lookup (scope, name) = some id) :
    ∃ d ∈ p.nodes.toList, d.id = id ∧ d.declaredIn = some scope ∧ d.name = name
      ∧ ∀ e ∈ p.nodes.toList, e.declaredIn = some scope → e.name = name →
        e = d ∨ d.Precedes scope e := by
  obtain ⟨rfl, -⟩ := ofScript_eq_ok_iff.mp h
  rw [(tables_ofTree _ _).1] at hbound
  obtain ⟨d, hd, hid, hscope, hname, -, hfirst⟩ := Script.first_of_bound hbound
  refine ⟨_, mem_nodes_ofTree.mpr ⟨d, hd, rfl⟩, hid, hscope, hname, ?_⟩
  intro e he hescope hename
  obtain ⟨m, hm, rfl⟩ := mem_nodes_ofTree.mp he
  rcases hfirst m hm hescope hename with rfl | hprecedes
  · exact .inl rfl
  · exact .inr hprecedes

/-- A name is bound in a scope if something declares it there. -/
theorem bound_eq_none_iff (h : ofScript source script = .ok p) :
    p.bound.lookup (scope, name) = none
      ↔ ∀ d ∈ p.nodes.toList, d.declaredIn = some scope → d.name ≠ name := by
  obtain ⟨rfl, -⟩ := ofScript_eq_ok_iff.mp h
  rw [(tables_ofTree _ _).1, Tree.lookup_bound_lowered, Option.map_eq_none_iff, List.find?_eq_none]
  constructor
  · intro hno d hd hscope hname
    obtain ⟨m, hm, rfl⟩ := mem_nodes_ofTree.mp hd
    refine hno m (Occurrence.mem_declared script.toTree_all hm hscope) ?_
    exact decide_eq_true ⟨hscope, hname⟩
  · intro hno m hm hdeclared
    obtain ⟨hscope, hname⟩ := of_decide_eq_true hdeclared
    exact hno _ (mem_nodes_ofTree.mpr ⟨m, Occurrence.mem_nodes_of_mem_declared hm, rfl⟩) hscope hname

/-- An identifier belongs to what binds its name in the innermost scope that does. -/
theorem decl_of_identifier (h : ofScript source script = .ok p) (hn : n ∈ p.nodes.toList)
    (hkind : n.kind = .identifier) :
    n.decl = n.scopes.findSome? fun scope => p.bound.lookup (scope, n.name) := by
  obtain ⟨rfl, -⟩ := ofScript_eq_ok_iff.mp h
  obtain ⟨m, hm, rfl⟩ := mem_nodes_ofTree.mp hn
  have hkind : m.kind = .identifier := hkind
  simp only [Node.declarationIn, hkind, Script.lookup_decls hm, if_true, (tables_ofTree _ _).1]
  rfl

/-- A declaration belongs to what binds its name in its scope. -/
theorem decl_of_declaredIn (h : ofScript source script = .ok p) (hn : n ∈ p.nodes.toList)
    (hscope : n.declaredIn = some scope) :
    n.decl.isSome ∧ n.decl = p.bound.lookup (scope, n.name) := by
  obtain ⟨rfl, -⟩ := ofScript_eq_ok_iff.mp h
  obtain ⟨m, hm, rfl⟩ := mem_nodes_ofTree.mp hn
  have hbound := Script.lookup_bound_of_declaredIn hm hscope
  have hdecl : m.declarationIn script.toTree.lowered.links.decls
      = some ((script.toTree.lowered.aliases.lookup m.id).getD m.id) := by
    rcases Tree.kind_of_declaredIn hm hscope with hkind | hkind | hkind <;>
      simp [Node.declarationIn, hkind, Script.lookup_decls hm]
  dsimp only
  rw [hdecl, (tables_ofTree _ _).1]
  exact ⟨rfl, hbound.symm⟩

/-- A declaration without a name belongs to itself. -/
theorem decl_of_declaredIn_eq_none (h : ofScript source script = .ok p) (hn : n ∈ p.nodes.toList)
    (hkind : n.kind = .variable ∨ n.kind = .parameter ∨ n.kind = .function)
    (hscope : n.declaredIn = none) : n.decl = some n.id := by
  obtain ⟨rfl, -⟩ := ofScript_eq_ok_iff.mp h
  obtain ⟨m, hm, rfl⟩ := mem_nodes_ofTree.mp hn
  have hnone := Script.lookup_aliases_eq_none hm hscope
  rcases hkind with (hkind : m.kind = _) | (hkind : m.kind = _) | (hkind : m.kind = _) <;>
    simp [Node.declarationIn, hkind, Script.lookup_decls hm, hnone]

/-- All other nodes belong to nothing. -/
theorem decl_eq_none {tree : Tree} (hn : n ∈ (ofTree source tree).nodes.toList)
    (hkind : n.kind ≠ .identifier ∧ n.kind ≠ .variable ∧ n.kind ≠ .parameter ∧ n.kind ≠ .function) :
    n.decl = none := by
  obtain ⟨m, hm, rfl⟩ := mem_nodes_ofTree.mp hn
  obtain ⟨hidentifier, hvariable, hparameter, hfunction⟩ := hkind
  dsimp only at *
  rw [Node.declarationIn]
  split <;> first | contradiction | rfl

/-- The identifiers that belong to something are listed in order, each under what it belongs to. -/
theorem referred_eq (h : ofScript source script = .ok p) : p.referred.toList
    = (p.nodes.toList.filter (·.kind = .identifier)).filterMap fun n => n.decl.map (·, n.id) := by
  obtain ⟨rfl, -⟩ := ofScript_eq_ok_iff.mp h
  rw [(tables_ofTree _ _).2.1, Script.referred_links, nodes_ofTree, List.filter_map, List.filterMap_map]
  refine List.filterMap_congr fun m hm => ?_
  obtain ⟨hm, hkind⟩ := List.mem_filter.mp hm
  have hkind : m.kind = .identifier := of_decide_eq_true hkind
  simp only [Function.comp_apply, Node.declarationIn, hkind, Script.lookup_decls hm, if_true]

/-- The return statements are listed as lowering leaves them, each under its function. -/
theorem returned_eq (source : Source) (tree : Tree) : (ofTree source tree).returned.toList
    = tree.whole.returned.map fun n => (n.func.getD 0, n.id) := by
  rw [(tables_ofTree _ _).2.2, Tree.lowered, Lowering.returned_follow]
  simp
  rfl

end Program

end LayoutInference
