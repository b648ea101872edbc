import Mathlib
import LayoutInference.Proofs.ApparentCache

/-!
# Programs without the names of declarations

`Program.nameless` takes the names of declarations away, together with those of the identifiers that
belong to one and the source text. Nothing that inference reads off a program depends on them: nodes are
related as before, and apparent types are the same (`Subject.of_nameless`). Other names stay, since they
carry meaning: those of properties, and those of identifiers that nothing declares.

`Program.Renamed` relates two programs that differ in such names alone. They are the same program once
the names are gone.
-/

namespace LayoutInference

/-- Whether the name of the node is that of a declaration: the node is one, or is an identifier that
belongs to one. -/
def Node.isBound (n : Node) : Bool :=
  match n.kind with
  | .variable | .parameter | .function => true
  | .identifier => n.decl.isSome
  | _ => false

/-- The node without the name of a declaration. -/
def Node.nameless (n : Node) : Node := { n with name := if n.isBound then "" else n.name }

/-- The program without the names of declarations and without source text. -/
def Program.nameless (p : Program) : Program where
  source := ⟨"", []⟩
  nodes := p.nodes.map Node.nameless
  bound := []
  referred := p.referred
  returned := p.returned

/-- The program with its apparent types, without the names of declarations. -/
def Subject.nameless (s : Subject) : Subject := { s with program := s.program.nameless }

/-- The node `m` is `n`, possibly under another name if that is the name of a declaration. -/
def Node.Renamed (n m : Node) : Prop :=
  m = { n with name := m.name } ∧ (n.isBound = true ∨ m.name = n.name)

/-- The programs differ in the names of declarations alone, leaving source text aside: their nodes are the
same but for names, and the same identifiers and return statements belong to them. For programs of
scripts the latter follows. -/
def Program.Renamed (p q : Program) : Prop :=
  List.Forall₂ Node.Renamed p.nodes.toList q.nodes.toList
    ∧ p.referred = q.referred ∧ p.returned = q.returned

deriving instance DecidableEq for Node

instance : DecidableRel Node.Renamed := fun n m =>
  inferInstanceAs (Decidable (m = { n with name := m.name } ∧ (n.isBound = true ∨ m.name = n.name)))

instance : DecidableRel Program.Renamed := fun p q =>
  inferInstanceAs (Decidable (List.Forall₂ Node.Renamed p.nodes.toList q.nodes.toList
    ∧ p.referred = q.referred ∧ p.returned = q.returned))

namespace Node

variable (n : Node)

-- The parentheses keep these from being used as definitional unfoldings: `simp` would change conditions
-- without their `Decidable` instances.
@[simp] theorem nameless_kind : n.nameless.kind = n.kind := (rfl)
@[simp] theorem nameless_value : n.nameless.value = n.value := (rfl)
@[simp] theorem nameless_ordinal : n.nameless.ordinal = n.ordinal := (rfl)
@[simp] theorem nameless_unsupported : n.nameless.unsupported = n.unsupported := (rfl)
@[simp] theorem nameless_id : n.nameless.id = n.id := (rfl)
@[simp] theorem nameless_parent : n.nameless.parent = n.parent := (rfl)
@[simp] theorem nameless_func : n.nameless.func = n.func := (rfl)
@[simp] theorem nameless_target : n.nameless.target = n.target := (rfl)
@[simp] theorem nameless_expr : n.nameless.expr = n.expr := (rfl)
@[simp] theorem nameless_items : n.nameless.items = n.items := (rfl)
@[simp] theorem nameless_decl : n.nameless.decl = n.decl := (rfl)
@[simp] theorem nameless_isCollection : n.nameless.isCollection = n.isCollection := (rfl)

variable {n}

/-- A name that is not one of a declaration stays. -/
theorem nameless_name (h : n.isBound = false) : n.nameless.name = n.name := by
  simp [nameless, h]

/-- A member is one with and without names. -/
@[simp] theorem nameless_isMember : n.nameless.isMember = n.isMember := by
  by_cases hkind : n.kind = .property
  · rw [isMember, isMember, nameless_name (by simp [isBound, hkind])]
    rfl
  · simp [isMember, hkind]

/-- The name of a member stays. -/
theorem name_of_isMember (h : n.isMember = true) : n.nameless.name = n.name := by
  simp only [isMember, Bool.and_eq_true, decide_eq_true_eq] at h
  exact nameless_name (by simp [isBound, h.1.1])

/-- The name of an identifier that nothing declares stays. -/
theorem name_of_undeclared (hkind : n.kind = .identifier) (hdecl : n.decl = none) :
    n.nameless.name = n.name :=
  nameless_name (by simp [isBound, hkind, hdecl])

/-- The name of a property stays. -/
theorem name_of_propertyAccess (hkind : n.kind = .propertyAccess) : n.nameless.name = n.name :=
  nameless_name (by simp [isBound, hkind])

/-- Nodes that differ in the name of a declaration are the same without it. -/
theorem Renamed.nameless_eq {m : Node} (h : n.Renamed m) : n.nameless = m.nameless := by
  obtain ⟨hm, hname⟩ := h
  have hbound : m.isBound = n.isBound := by
    rw [hm]
    rfl
  have hnames : (if n.isBound then "" else n.name) = if m.isBound then "" else m.name := by
    rw [hbound]
    split
    · rfl
    · next hfree => exact (hname.resolve_left hfree).symm
  calc n.nameless = { n with name := if m.isBound then "" else m.name } := by rw [nameless, hnames]
    _ = { ({ n with name := m.name } : Node) with name := if m.isBound then "" else m.name } := rfl
    _ = m.nameless := by rw [← hm, nameless]

end Node

namespace Program

variable (p : Program)

@[simp] theorem size_nameless : p.nameless.nodes.size = p.nodes.size := by simp [nameless]

/-- The nodes of a program without names are its nodes without names. -/
@[simp] theorem toList_nameless : p.nameless.nodes.toList = p.nodes.toList.map Node.nameless := by
  simp [nameless]

@[simp] theorem ids_nameless : p.nameless.ids = p.ids := by simp [ids]

/-- A node is found under its id with and without names. -/
@[simp] theorem node?_nameless (id : NodeId) :
    p.nameless.node? id = (p.node? id).map Node.nameless := by
  rw [node?, node?]
  split <;> simp [nameless]

/-- A node that may not be there is found with and without names. -/
@[simp] theorem at?_nameless (id : Option NodeId) :
    p.nameless.at? id = (p.at? id).map Node.nameless := by
  cases id <;> simp [at?]

/-- An id belongs to the same declaration with and without names. -/
@[simp] theorem declaration_nameless (id : NodeId) : p.nameless.declaration id = p.declaration id := by
  rw [declaration, declaration, node?_nameless]
  cases p.node? id <;> rfl

/-- A program has the same declarations with and without names. -/
@[simp] theorem declarations_nameless : p.nameless.declarations = p.declarations := by
  rw [declarations, declarations, toList_nameless, List.filter_map, List.map_map]
  rfl

/-- A declaration has the same references with and without names. -/
@[simp] theorem references_nameless (id : NodeId) : p.nameless.references id = p.references id := by
  rw [references, references, declaration_nameless]
  rfl

/-- A function has the same returns with and without names. -/
@[simp] theorem returns_nameless (fn : NodeId) : p.nameless.returns fn = p.returns fn := rfl

/-- A node stands in the same function with and without names. -/
@[simp] theorem functionOf_nameless (id : NodeId) : p.nameless.functionOf id = p.functionOf id := by
  simp only [functionOf, node?_nameless, at?_nameless]
  cases p.node? id with
  | none => rfl
  | some n =>
    cases hdecl : p.at? n.decl with
    | none => simp [hdecl]
    | some decl =>
      cases hexpr : p.at? decl.expr with
      | none => simp [hdecl, hexpr]
      | some initial =>
        simp only [Option.map_some, Option.bind_eq_bind, Option.bind_some, Node.nameless_decl, hdecl,
          Node.nameless_expr, hexpr]
        rfl

/-- Nodes that differ in the names of declarations, one by one, are the same without them. -/
theorem map_nameless_eq {p q : Program}
    (h : List.Forall₂ Node.Renamed p.nodes.toList q.nodes.toList) :
    p.nodes.map Node.nameless = q.nodes.map Node.nameless := by
  rw [← Array.toList_inj, Array.toList_map, Array.toList_map, ← List.forall₂_eq_eq_eq,
    List.forall₂_map_left_iff, List.forall₂_map_right_iff]
  exact h.imp fun _ _ hnm => hnm.nameless_eq

/-- Programs that differ in the names of declarations are the same without them. -/
theorem Renamed.nameless_eq {p q : Program} (h : p.Renamed q) : p.nameless = q.nameless := by
  obtain ⟨hnodes, hreferred, hreturned⟩ := h
  rw [nameless, nameless, map_nameless_eq hnodes, hreferred, hreturned]

end Program

/-! ## Apparent types -/

section Apparent

variable {m : Type → Type} [Monad m] (p : Program) (look : NodeId → m Apparent) (n : Node)

/-- The rule for declarations does not depend on their names. -/
theorem declaredType_nameless : declaredType p.nameless look n.nameless = declaredType p look n := by
  simp only [declaredType, Program.at?_nameless, Node.nameless_parent]
  cases p.at? n.parent <;> rfl

/-- The rule for returned values does not depend on names. -/
theorem returnedType_nameless (fn : NodeId) :
    returnedType p.nameless look fn = returnedType p look fn := by
  have hexpr (ret : NodeId) :
      ((p.nameless.node? ret).bind (·.expr)) = (p.node? ret).bind (·.expr) := by
    rw [Program.node?_nameless]
    cases p.node? ret <;> rfl
  simp only [returnedType, hexpr, Program.returns_nameless]

/-- Only an identifier that nothing declares is known by its name. -/
theorem isMath_nameless : n.nameless.kind = .identifier ∧ n.nameless.name = "Math" ∧ n.nameless.decl = none
    ↔ n.kind = .identifier ∧ n.name = "Math" ∧ n.decl = none := by
  refine and_congr_right fun hkind => and_congr_left fun hdecl => ?_
  rw [Node.name_of_undeclared (n := n) hkind hdecl]

/-- The rule for calls does not depend on the names of declarations. -/
theorem callType_nameless : callType p.nameless look n.nameless = callType p look n := by
  simp only [callType, Program.at?_nameless, Node.nameless_target]
  cases p.at? n.target with
  | none => rfl
  | some callee =>
    simp only [Option.map_some, Node.nameless_kind, Node.nameless_target, Node.nameless_id,
      Node.nameless_decl, Program.functionOf_nameless, returnedType_nameless]
    split
    · next hkind =>
      cases p.at? callee.target with
      | none => rfl
      | some object =>
        simp only [Option.map_some, Node.nameless_id, Node.name_of_propertyAccess hkind]
        exact if_congr (isMath_nameless object) rfl rfl
    · cases p.functionOf callee.id with
      | some fn => rfl
      | none =>
        dsimp only
        by_cases h : callee.kind = .identifier ∧ callee.decl = none
        · rw [if_pos h, if_pos h, Node.name_of_undeclared h.1 h.2]
        · rw [if_neg h, if_neg h]

/-- The rule for object literals depends on the names of members alone, which stay. -/
theorem memberTypes_nameless (ids : List NodeId) :
    memberTypes p.nameless look ids = memberTypes p look ids := by
  induction ids with
  | nil => rfl
  | cons id ids ih =>
    simp only [memberTypes, Program.node?_nameless, ih]
    cases p.node? id with
    | none => rfl
    | some property =>
      simp only [Option.map_some, Node.nameless_isMember]
      split
      · next hmember =>
        rw [Node.name_of_isMember hmember]
        rfl
      · rfl

/-- The rules for apparent types do not look at the names of declarations. -/
theorem apparent_nameless : n.nameless.apparent p.nameless look = n.apparent p look := by
  unfold Node.apparent
  simp only [Node.nameless_kind, Node.nameless_decl, Node.nameless_target, Node.nameless_expr,
    Node.nameless_items, Node.nameless_value, declaredType_nameless, callType_nameless,
    memberTypes_nameless, Program.at?_nameless]
  cases hkind : n.kind with
  | identifier =>
    cases hdecl : n.decl with
    | some decl => rfl
    | none => simp only [Node.name_of_undeclared hkind hdecl]
  | propertyAccess => simp only [Node.name_of_propertyAccess hkind]
  | elementAccess => cases p.at? n.expr <;> rfl
  | _ => rfl

end Apparent

/-- Apparent types do not depend on the names of declarations. -/
theorem Program.apparentOf_nameless (p : Program) (fresh : List NodeId) (id : NodeId) :
    p.nameless.apparentOf fresh id = p.apparentOf fresh id := by
  fun_induction p.apparentOf fresh id with
  | case1 fresh id hnode => rw [apparentOf, node?_nameless, hnode, Option.map_none]
  | case2 fresh id n hnode hfresh ih =>
    rw [apparentOf_fresh (n := n.nameless) (by simp [hnode]) hfresh, apparent_nameless]
    simp only [ih]
  | case3 fresh id n hnode hfresh => exact apparentOf_cut hfresh

/-- Programs have the same apparent types with and without names. -/
theorem Subject.of_nameless (p : Program) : Subject.of p.nameless = (Subject.of p).nameless := by
  have htable : p.nameless.apparentTable = p.apparentTable := by
    simp [Program.apparentTable, Program.askAll_eq, Program.apparentOf_nameless]
  rw [Subject.of, Subject.of, htable]
  rfl

end LayoutInference
