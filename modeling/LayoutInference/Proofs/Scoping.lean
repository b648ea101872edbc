import Mathlib
import LayoutInference.Proofs.Links

/-!
# Lexical scoping

The rules of scoping, said of the finished nodes and the nodes around them, and the proof that programs
follow them: `ofScript_lexical`.

* `scopeChain` are the scopes open at a node, innermost first.
* `Program.Binds` says in which scope a declaration binds its name.
* `Program.FirstDeclared` picks the declaration that takes effect first among those of one name in one
  scope, wherever in the program they stand.
* `Program.Resolves` goes outwards along a chain of scopes to the first that binds a name.
-/

namespace LayoutInference

/-! ## The rules -/

/-- Whether the node opens a scope that covers its child `child`, where `above` are the nodes around it.
The body of a function shares the scope of the function; that of a `switch` starts after the value it
branches on. -/
def Node.covers (n : Node) (above : List Node) (child : NodeId) : Bool :=
  match n.kind with
  | .program | .function | .forOf | .forIn => true
  | .block => !above.head?.any (·.kind = .function)
  | .loop => n.value = "for"
  | .other => n.value = "switch" ∧ child ∈ n.items.tail
  | _ => false

/-- The scopes open at the node `id`, innermost first, where `above` are the nodes around it. -/
def scopeChain (id : NodeId) : List Node → List NodeId
  | [] => []
  | n :: above =>
    if n.covers above id then n.id :: scopeChain n.id above else scopeChain n.id above

namespace Program

/-- `p.Binds d scope`: the declaration `d` binds its name in `scope`. -/
inductive Binds (p : Program) : Node → NodeId → Prop where
  /-- A `var` or a function declaration, in the nearest function or the program. -/
  | hoisted {d owner : Node} {above : List Node}
    (h : d.kind = .variable ∧ d.value = "var" ∨ d.kind = .function ∧ d.declared = true)
    (habove : p.Ancestors d above)
    (howner : (above.find? fun n => n.kind = .function ∨ n.kind = .program) = some owner) :
    Binds p d owner.id
  /-- Any other variable, in the innermost open scope. -/
  | lexical {d : Node} {above : List Node} {scope : NodeId}
    (h : d.kind = .variable ∧ d.value ≠ "var") (habove : p.Ancestors d above)
    (hscope : (scopeChain d.id above).head? = some scope) : Binds p d scope
  /-- A parameter, in the scope of its function. -/
  | parameter {d fn : Node} (h : d.kind = .parameter) (hparent : p.at? d.parent = some fn)
    (hfn : fn.kind = .function) : Binds p d fn.id
  /-- A function expression, in its own scope. -/
  | ownName {d : Node} (h : d.kind = .function ∧ d.declared = false) : Binds p d d.id

/-- The node `d` declares a name in a scope. -/
structure Declares (p : Program) (scope : NodeId) (name : String) (d : Node) : Prop where
  mem : d ∈ p.nodes.toList
  named : d.name = name
  nonempty : name ≠ ""
  binds : p.Binds d scope

/-- Of the declarations of a name in a scope, `d` takes effect first. -/
def FirstDeclared (p : Program) (scope : NodeId) (name : String) (d : Node) : Prop :=
  p.Declares scope name d ∧ ∀ e, p.Declares scope name e → e = d ∨ d.Precedes scope e

/-- `p.Resolves name chain found`: the innermost scope of `chain` that binds `name`, and in it the first
declaration of that name. -/
inductive Resolves (p : Program) (name : String) : List NodeId → Option NodeId → Prop where
  | nowhere : Resolves p name [] none
  | here {scope : NodeId} {chain : List NodeId} {d : Node} (h : p.FirstDeclared scope name d) :
    Resolves p name (scope :: chain) (some d.id)
  | outside {scope : NodeId} {chain : List NodeId} {found : Option NodeId}
    (hno : ∀ d, ¬p.Declares scope name d) (h : Resolves p name chain found) :
    Resolves p name (scope :: chain) found

end Program

/-! ## Surroundings -/

/-- The scopes open at a part. -/
theorem Occurrence.scopes_of_part {x y : Occurrence} (h : y ∈ x.parts) : y.around.scopes
    = if x.label.opening x.around = .everything
        ∨ x.label.opening x.around = .afterFirst ∧ y.id ∈ x.node.items.tail
      then x.id :: x.around.scopes else x.around.scopes := by
  rw [around_eq_of_mem_parts h, inner, later, Surroundings.inner, Surroundings.later]
  by_cases hlater : y.id ∈ x.node.items.tail <;> cases x.label.opening x.around <;>
    simp [hlater] <;> rfl

namespace Program

section Tree

variable {source : Source} {tree : Tree} {y : Occurrence} {above : List Occurrence}

/-- A node stands directly in a function if the nearest node above it is one. -/
theorem inFunction_of_path (h : tree.whole.Path y above) : y.around.inFunction
    = (above.map tree.shown).head?.any (·.kind = .function) := by
  cases h with
  | root => rfl
  | part _ hy =>
    obtain ⟨scopes, haround⟩ := Occurrence.around_of_mem_parts hy
    rw [haround]
    simp [Surroundings.within]

/-- Hoisted names go to the nearest function or program above. -/
theorem hoist_of_path (h : tree.whole.Path y above) : y.around.hoist
    = ((above.map tree.shown).find? fun n => n.kind = .function ∨ n.kind = .program).map (·.id) := by
  refine nearest_of_path (c := fun kind => kind = .function ∨ kind = .program) rfl ?_ h
  intro around label id scopes
  simp [Surroundings.within]

/-- A node's scope covers a child if the node opens a scope for everything, or for all items but the first
and the child is one of those. -/
theorem covers_shown (h : tree.whole.Path y above) (child : NodeId) :
    (tree.shown y).covers (above.map tree.shown) child = true
      ↔ y.label.opening y.around = .everything
        ∨ y.label.opening y.around = .afterFirst ∧ child ∈ y.node.items.tail := by
  rw [Node.covers, Label.opening, inFunction_of_path h, tree.shown_toLabel]
  cases y.label.kind with
  | block => cases (above.map tree.shown).head?.any (·.kind = .function) <;> simp
  | loop => by_cases hfor : y.label.value = "for" <;> simp [hfor]
  | other => by_cases hswitch : y.label.value = "switch" <;> simp [hswitch]; rfl
  | _ => simp

/-- The scopes around a node are those opened by its ancestors, the innermost first. -/
theorem scopes_of_path (h : tree.whole.Path y above) :
    y.around.scopes = scopeChain y.id (above.map tree.shown) := by
  induction h with
  | root => rfl
  | @part x y above hpath hy ih =>
    rw [Occurrence.scopes_of_part hy, List.map_cons, scopeChain, tree.shown_id, ← ih]
    exact if_congr (covers_shown hpath y.id).symm rfl rfl

end Tree

/-! ## Bindings -/

section Bindings

variable {source : Source} {script : Script} {y : Occurrence} {above : List Occurrence} {scope : NodeId}

/-- A declared name is not empty, and its node binds it in the scope it is declared in. -/
theorem binds_of_declaresIn (h : script.toTree.whole.Path y above)
    (hscope : y.label.declaresIn y.around y.id = some scope) :
    y.label.name ≠ "" ∧ (ofTree source script.toTree).Binds (script.toTree.shown y) scope := by
  have habove : (ofTree source script.toTree).Ancestors _ _ := ancestors_of_path h
  -- Variables declared with `var` and declared functions go to the nearest function or program.
  have hhoist (hhoisted : y.around.hoist = some scope)
      (hkind : y.label.kind = .variable ∧ y.label.value = "var"
        ∨ y.label.kind = .function ∧ y.label.declared = true) :
      (ofTree source script.toTree).Binds (script.toTree.shown y) scope := by
    rw [hoist_of_path h] at hhoisted
    obtain ⟨owner, howner, rfl⟩ := Option.map_eq_some_iff.mp hhoisted
    exact .hoisted (by rwa [script.toTree.shown_toLabel]) habove howner
  rw [Label.declaresIn] at hscope
  split at hscope
  · cases hscope
  · next hname =>
    refine ⟨hname, ?_⟩
    split at hscope
    · next hkind =>
      split at hscope
      · next hvar => exact hhoist hscope (.inl ⟨hkind, hvar⟩)
      · next hvar =>
        rw [scopes_of_path h] at hscope
        exact .lexical (by simp [hkind, hvar]) habove (by rwa [script.toTree.shown_id])
    · next hkind =>
      -- A parameter stands directly in its function, whose scope is the innermost one.
      obtain ⟨x, hx, hfn⟩ := function_of_parameter h hkind
      cases h with
      | root => cases hx
      | part hpath hy =>
        obtain rfl := Option.some.inj hx
        rw [Occurrence.scopes_of_function hy hfn] at hscope
        obtain rfl := Option.some.inj hscope
        cases habove with
        | inside hparent =>
          rw [← script.toTree.shown_id]
          exact .parameter (by simpa using hkind) hparent (by simpa using hfn)
    · next hkind =>
      split at hscope
      · next hdeclared => exact hhoist hscope (.inr ⟨hkind, hdeclared⟩)
      · next hexpr =>
        -- The name of a function expression is bound in the function itself.
        obtain rfl := Option.some.inj hscope
        rw [← script.toTree.shown_id y]
        exact .ownName (by simp [hkind, hexpr])
    · cases hscope

/-- A node with a name is declared in the scope in which it binds. -/
theorem declaresIn_of_binds {tree : Tree} (h : tree.whole.Path y above) (hname : y.label.name ≠ "")
    (hbinds : (ofTree source tree).Binds (tree.shown y) scope) :
    y.label.declaresIn y.around y.id = some scope := by
  have habove : (ofTree source tree).Ancestors _ _ := ancestors_of_path h
  rw [Label.declaresIn, if_neg hname]
  generalize hd : tree.shown y = d at hbinds
  cases hbinds with
  | @hoisted owner _ hkind habove' howner =>
    subst hd
    obtain rfl := habove.unique habove'
    -- The node has one list of ancestors, so the owner in the rule is the one that hoisting found.
    have hhoist : y.around.hoist = some owner.id := by
      rw [hoist_of_path h, howner, Option.map_some]
    rw [tree.shown_toLabel] at hkind
    rcases hkind with ⟨hkind, hvar⟩ | ⟨hkind, hdeclared⟩
    · simp only [hkind, hvar, if_true]
      exact hhoist
    · simp only [hkind, hdeclared, if_true]
      exact hhoist
  | lexical hkind habove' hscope =>
    subst hd
    obtain rfl := habove.unique habove'
    rw [tree.shown_toLabel] at hkind
    simp only [hkind.1, hkind.2, if_false]
    rwa [scopes_of_path h, ← tree.shown_id y]
  | parameter hkind hparent hfn =>
    subst hd
    rw [tree.shown_toLabel] at hkind
    simp only [hkind]
    cases h with
    | root => simp [at?, Tree.whole] at hparent
    | part hpath hy =>
      rw [tree.shown_parent, Occurrence.parent_of_mem_parts hy] at hparent
      obtain rfl := Option.some.inj ((node?_of_path hpath).symm.trans hparent)
      rw [tree.shown_id, Occurrence.scopes_of_function hy (by simpa using hfn), List.head?_cons]
  | ownName hkind =>
    subst hd
    rw [tree.shown_toLabel] at hkind
    simp [hkind]

/-- Declarations are recorded with the scope in which they bind their names. -/
theorem declaredIn_iff {p : Program} (h : ofScript source script = .ok p) {d : Node}
    (hd : d ∈ p.nodes.toList) : d.declaredIn = some scope ↔ d.name ≠ "" ∧ p.Binds d scope := by
  obtain ⟨rfl, -⟩ := ofScript_eq_ok_iff.mp h
  obtain ⟨y, above, hpath, rfl⟩ := exists_path hd
  rw [script.toTree.shown_declaredIn, script.toTree.shown_toLabel]
  exact ⟨binds_of_declaresIn hpath, fun h => declaresIn_of_binds hpath h.1 h.2⟩

end Bindings

end Program

/-! ## Resolution -/

namespace Program

/-- At most one node is the first to declare a name in a scope. -/
theorem FirstDeclared.unique {p : Program} {scope : NodeId} {name : String} {d e : Node}
    (hd : p.FirstDeclared scope name d) (he : p.FirstDeclared scope name e) : d = e := by
  rcases hd.2 e he.1 with h | h
  · exact h.symm
  · rcases he.2 d hd.1 with h' | h'
    · exact h'
    · exact absurd h' h.asymm

/-- A name resolves to one node at most. -/
theorem Resolves.unique {p : Program} {name : String} {chain : List NodeId} {found found' : Option NodeId}
    (h : p.Resolves name chain found) (h' : p.Resolves name chain found') : found = found' := by
  induction h with
  | nowhere =>
    cases h'
    rfl
  | here hfirst =>
    cases h' with
    | here hfirst' => rw [hfirst.unique hfirst']
    | outside hno => exact absurd hfirst.1 (hno _)
  | outside hno h ih =>
    cases h' with
    | here hfirst => exact absurd hfirst.1 (hno _)
    | outside _ h' => exact ih h'

section Script

variable {source : Source} {script : Script} {p : Program} {scope : NodeId} {name : String}

/-- The nodes that declare a name in a scope are those that lowering declared there under that name. -/
theorem declares_iff (h : ofScript source script = .ok p) {d : Node} :
    p.Declares scope name d ↔ d ∈ p.nodes.toList ∧ d.declaredIn = some scope ∧ d.name = name := by
  constructor
  · rintro ⟨hd, rfl, hname, hbinds⟩
    exact ⟨hd, (declaredIn_iff h hd).mpr ⟨hname, hbinds⟩, rfl⟩
  · rintro ⟨hd, hscope, rfl⟩
    obtain ⟨hname, hbinds⟩ := (declaredIn_iff h hd).mp hscope
    exact ⟨hd, rfl, hname, hbinds⟩

/-- A name is bound by the first declaration of it in the scope. -/
theorem firstDeclared_of_bound (h : ofScript source script = .ok p) {id : NodeId}
    (hbound : p.bound.lookup (scope, name) = some id) :
    ∃ d, p.FirstDeclared scope name d ∧ d.id = id := by
  obtain ⟨d, hd, hid, hscope, hname, hfirst⟩ := exists_first_of_bound h hbound
  refine ⟨d, ⟨(declares_iff h).mpr ⟨hd, hscope, hname⟩, ?_⟩, hid⟩
  intro e he
  obtain ⟨hmem, hescope, hename⟩ := (declares_iff h).mp he
  exact hfirst e hmem hescope hename

/-- A name that is not bound in a scope is not declared there. -/
theorem not_declares_of_eq_none (h : ofScript source script = .ok p)
    (hbound : p.bound.lookup (scope, name) = none) (d : Node) : ¬p.Declares scope name d := by
  intro hd
  obtain ⟨hmem, hscope, hname⟩ := (declares_iff h).mp hd
  exact (bound_eq_none_iff h).mp hbound d hmem hscope hname

/-- Going outwards through the scopes is what `Resolves` says. -/
theorem resolves_findSome? (h : ofScript source script = .ok p) (chain : List NodeId) :
    p.Resolves name chain
      (chain.findSome? fun scope => p.bound.lookup (scope, name)) := by
  induction chain with
  | nil => exact .nowhere
  | cons scope chain ih =>
    rw [List.findSome?_cons]
    split
    · next id hfirst =>
      obtain ⟨d, hd, rfl⟩ := firstDeclared_of_bound h hfirst
      exact .here hd
    · next hfirst => exact .outside (not_declares_of_eq_none h hfirst) ih

/-- A name resolves if some scope of the chain has a declaration of it. -/
theorem exists_resolves_iff (h : ofScript source script = .ok p) {chain : List NodeId} :
    (∃ d, p.Resolves name chain (some d)) ↔ ∃ scope ∈ chain, ∃ d, p.Declares scope name d := by
  constructor
  · rintro ⟨d, hd⟩
    generalize hfound : some d = found at hd
    induction hd with
    | nowhere => cases hfound
    | @here scope chain d hfirst => exact ⟨scope, List.mem_cons_self, d, hfirst.1⟩
    | outside hno hd ih =>
      obtain ⟨scope, hscope, hd⟩ := ih hfound
      exact ⟨scope, List.mem_cons_of_mem _ hscope, hd⟩
  · rintro ⟨scope, hscope, d, hd⟩
    cases hfound : chain.findSome? fun scope => p.bound.lookup (scope, name) with
    | some id =>
      exact ⟨id, hfound ▸ resolves_findSome? h chain⟩
    | none =>
      have hno := List.findSome?_eq_none_iff.mp hfound scope hscope
      exact absurd hd (not_declares_of_eq_none h hno d)

end Script

end Program

/-! ## Visible names -/

/-- Inserting a name into a list adds that name and nothing else. -/
@[simp] theorem mem_insertName {name new : String} {names : List String} :
    name ∈ insertName new names ↔ name = new ∨ name ∈ names := by
  induction names with
  | nil => simp [insertName]
  | cons other rest ih =>
    rw [insertName]
    split_ifs with hlt heq
    · rw [List.mem_cons]
    · subst heq
      simp
    · rw [List.mem_cons, ih, List.mem_cons]
      exact or_left_comm

/-- Inserting a name keeps a list strictly ascending. -/
theorem pairwise_insertName {new : String} {names : List String} (h : names.Pairwise (· < ·)) :
    (insertName new names).Pairwise (· < ·) := by
  induction names with
  | nil => exact List.pairwise_singleton _ _
  | cons other rest ih =>
    obtain ⟨hother, hrest⟩ := List.pairwise_cons.mp h
    rw [insertName]
    split_ifs with hlt heq
    · refine List.pairwise_cons.mpr ⟨?_, h⟩
      intro name hname
      rcases List.mem_cons.mp hname with rfl | hname
      · exact hlt
      · exact String.lt_trans hlt (hother name hname)
    · exact h
    · refine List.pairwise_cons.mpr ⟨?_, ih hrest⟩
      intro name hname
      rcases mem_insertName.mp hname with rfl | hname
      · exact lt_of_le_of_ne (not_lt.mp hlt) (Ne.symm heq)
      · exact hother name hname

namespace Program

variable {source : Source} {script : Script} {p : Program}

/-- The visible names are in ascending order. -/
theorem pairwise_visibleNames (p : Program) (id : NodeId) :
    (p.visibleNames id).Pairwise (· < ·) := by
  have hfold (names : List String) : (names.foldr insertName []).Pairwise (· < ·) := by
    induction names with
    | nil => exact .nil
    | cons name names ih => exact pairwise_insertName ih
  rw [visibleNames]
  split
  · exact .nil
  · exact hfold _

/-- The names bound in a scope are those that something declares there. -/
theorem mem_namesIn (h : ofScript source script = .ok p) {scope : NodeId} {name : String} :
    name ∈ p.namesIn scope ↔ ∃ d, p.Declares scope name d := by
  have hlookup : name ∈ p.namesIn scope ↔ (p.bound.lookup (scope, name)).isSome := by
    rw [namesIn, List.mem_map, List.lookup_isSome_iff]
    constructor
    · rintro ⟨⟨⟨s, x⟩, id⟩, hmem, rfl⟩
      obtain ⟨hbound, hscope⟩ := List.mem_filter.mp hmem
      obtain rfl : s = scope := of_decide_eq_true hscope
      exact ⟨((s, x), id), hbound, beq_self_eq_true (s, x)⟩
    · rintro ⟨⟨key, id⟩, hmem, hkey⟩
      obtain rfl : (scope, name) = key := eq_of_beq hkey
      exact ⟨_, List.mem_filter.mpr ⟨hmem, decide_eq_true rfl⟩, rfl⟩
  rw [hlookup, Option.isSome_iff_exists]
  constructor
  · rintro ⟨id, hid⟩
    obtain ⟨d, hd, -⟩ := firstDeclared_of_bound h hid
    exact ⟨d, hd.1⟩
  · rintro ⟨d, hd⟩
    cases hbound : p.bound.lookup (scope, name) with
    | none => exact absurd hd (not_declares_of_eq_none h hbound d)
    | some id => exact ⟨id, rfl⟩

/-- The names visible at a node are those declared in a scope that is open there. -/
theorem mem_visibleNames (h : ofScript source script = .ok p) {n : Node} (hn : n ∈ p.nodes.toList)
    {name : String} :
    name ∈ p.visibleNames n.id ↔ ∃ scope ∈ n.scopes, ∃ d, p.Declares scope name d := by
  have hfold (names : List String) : name ∈ names.foldr insertName [] ↔ name ∈ names := by
    induction names with
    | nil => rfl
    | cons other names ih => simp [ih]
  rw [visibleNames, (ofScript_numbered h).node?_of_mem hn]
  simp only [hfold, List.mem_flatMap, mem_namesIn h]

/-- What a node knows about the names at its place, `chain` being the scopes open there. -/
structure LexicalAt (p : Program) (n : Node) (chain : List NodeId) : Prop where
  /-- An identifier belongs to the declaration that its name resolves to. -/
  declaration : n.kind = .identifier → p.Resolves n.name chain (p.declaration n.id)
  /-- The visible names are listed in ascending order, each once. -/
  sorted : (p.visibleNames n.id).Pairwise (· < ·)
  /-- They are the names that resolve to something. -/
  visible : ∀ name, name ∈ p.visibleNames n.id ↔ ∃ d, p.Resolves name chain (some d)
  /-- An identifier has a declaration if its name is among them. -/
  resolved : n.kind = .identifier → ((p.declaration n.id).isSome ↔ n.name ∈ p.visibleNames n.id)

/-- The scopes that a node keeps are those that the nodes around it open. -/
theorem exists_scopeChain (h : ofScript source script = .ok p) {n : Node} (hn : n ∈ p.nodes.toList) :
    ∃ above, p.Ancestors n above ∧ scopeChain n.id above = n.scopes := by
  obtain ⟨rfl, -⟩ := ofScript_eq_ok_iff.mp h
  obtain ⟨y, above, hpath, rfl⟩ := exists_path hn
  refine ⟨above.map script.toTree.shown, ancestors_of_path hpath, ?_⟩
  rw [script.toTree.shown_id, script.toTree.shown_scopes, scopes_of_path hpath]

/-- An identifier belongs to what its name resolves to. -/
theorem resolves_declaration (h : ofScript source script = .ok p) {n : Node}
    (hn : n ∈ p.nodes.toList) (hkind : n.kind = .identifier) :
    p.Resolves n.name n.scopes (p.declaration n.id) := by
  rw [declaration, (ofScript_numbered h).node?_of_mem hn, Option.bind_some,
    decl_of_identifier h hn hkind]
  exact resolves_findSome? h n.scopes

/-- Names are resolved lexically, and a name is visible in the whole of the scope that declares it. -/
theorem ofScript_lexical (h : ofScript source script = .ok p) :
    ∀ n ∈ p.nodes.toList, ∃ above, p.Ancestors n above ∧ p.LexicalAt n (scopeChain n.id above) := by
  intro n hn
  obtain ⟨above, habove, hchain⟩ := exists_scopeChain h hn
  have hvisible (name : String) :
      name ∈ p.visibleNames n.id ↔ ∃ d, p.Resolves name n.scopes (some d) := by
    rw [mem_visibleNames h hn, exists_resolves_iff h]
  refine ⟨above, habove, ?_⟩
  rw [hchain]
  refine ⟨resolves_declaration h hn, pairwise_visibleNames p n.id, hvisible, ?_⟩
  intro hkind
  have hresolves := resolves_declaration h hn hkind
  rw [hvisible, Option.isSome_iff_exists]
  constructor
  · rintro ⟨d, hd⟩
    exact ⟨d, hd ▸ hresolves⟩
  · rintro ⟨d, hd⟩
    exact ⟨d, hresolves.unique hd⟩

/-- `let g = function f(f, b) { x = f; { let x = b; x; } var x; var x; };`
`switch (y) { case 1: let y; y; } try {} catch (e) { e; }` -/
def shadowedNames : Script :=
  ⟨[Script.declares "g" (.function ⟨0, 0⟩ "f"
      [.mk (.name ⟨0, 0⟩ "f") none, .mk (.name ⟨0, 0⟩ "b") none] none (.mk ⟨0, 0⟩
        [Script.assigns (Script.nameOf "x") (Script.nameOf "f"),
          .block (.mk ⟨0, 0⟩ [Script.declares "x" (Script.nameOf "b"),
            .expression ⟨0, 0⟩ (Script.nameOf "x")]),
          .var ⟨0, 0⟩ [.mk (.name ⟨0, 0⟩ "x") none], .var ⟨0, 0⟩ [.mk (.name ⟨0, 0⟩ "x") none]])),
    .switch ⟨0, 0⟩ (Script.nameOf "y") [.mk (some ⟨0, 0⟩) (some (Script.numberOf "1"))
      [.lexical ⟨0, 0⟩ false [.mk (.name ⟨0, 0⟩ "y") none], .expression ⟨0, 0⟩ (Script.nameOf "y")]],
    .tryCatch ⟨0, 0⟩ (.mk ⟨0, 0⟩ []) (some (.mk ⟨0, 0⟩ (some (.name ⟨0, 0⟩ "e"))
      [.expression ⟨0, 0⟩ (Script.nameOf "e")])) none]⟩

/-- The first `x` belongs to the `var` that comes after it, the `f` next to it to the parameter and not to
the function; the `x` in the inner block is that of the block, and the value that the `switch` looks at
stands outside the scope of its clauses. -/
theorem ofScript_lexical_shadowedNames :
    ofScript ⟨"main.js", []⟩ shadowedNames = .ok shadowedNames.program
      ∧ [10, 11, 15, 17, 23, 29, 35].map shadowedNames.program.declaration
        = [some 19, some 5, some 6, some 14, none, some 27, some 33]
      ∧ shadowedNames.program.visibleNames 17 = ["b", "f", "g", "x"]
      ∧ ∃ n above, shadowedNames.program.node? 10 = some n ∧ shadowedNames.program.Ancestors n above
        ∧ shadowedNames.program.Resolves "x" (scopeChain 10 above) (some 19) := by
  have hscript := Script.ofScript_eq_ok shadowedNames (by decide +kernel)
  refine ⟨hscript, by decide +kernel, by decide +kernel, ?_⟩
  obtain ⟨n, hn⟩ : ∃ n, shadowedNames.program.node? 10 = some n :=
    Option.isSome_iff_exists.mp (by decide +kernel)
  obtain ⟨above, habove, hlexical⟩ := ofScript_lexical hscript n (mem_nodes hn)
  have hlabel : (shadowedNames.program.node? 10).map (fun n => (n.id, n.kind, n.name))
      = some (10, .identifier, "x") := by decide +kernel
  have hdecl : shadowedNames.program.declaration 10 = some 19 := by decide +kernel
  rw [hn, Option.map_some, Option.some.injEq, Prod.mk.injEq, Prod.mk.injEq] at hlabel
  obtain ⟨hid, hkind, hname⟩ := hlabel
  refine ⟨n, above, hn, habove, ?_⟩
  rw [← hdecl, ← hname, ← hid]
  exact hlexical.declaration hkind

end Program

end LayoutInference
