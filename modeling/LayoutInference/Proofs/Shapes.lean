import Mathlib
import LayoutInference.Proofs.Occurrences

/-!
# Shapes of the trees of scripts

Each construct of a script chooses the roles of its parts and the order in which they are lowered.
`Tree.Shaped` says which choices a kind of node allows, and `Tree.Proper` adds what is known of labels;
`Script.toTree_all` shows that all nodes of a script's tree are proper, construct by construct. What
follows from it:

* A node lists its children in the order in which they were lowered (`Occurrence.children_node`).
* An expression declares no names and returns nothing, except inside the functions in it
  (`Tree.Contained`). So what stands in a return statement or in the default value of a parameter cannot
  come between the returns or the declarations of the function around it.
* Only some constructs may be skipped by the analysis: assignments and calls are never among them
  (`Program.supported_of_kind`), and neither are named parameters (`Program.supported_of_named`).
* Parameters stand in functions (`Program.function_of_parameter`).
-/

namespace LayoutInference

namespace Tree

/-! ## All nodes of a tree -/

mutual

/-- Whether all nodes of a tree satisfy `P`, a property of a label and its children below a node of kind
`parent`. -/
def All (P : Option Kind → Label → List (Role × Tree) → Prop) (parent : Option Kind) : Tree → Prop
  | .node label parts => P parent label parts ∧ AllParts P label.kind parts

/-- The same of the children of a node. -/
def AllParts (P : Option Kind → Label → List (Role × Tree) → Prop) (parent : Option Kind) :
    List (Role × Tree) → Prop
  | [] => True
  | (_, t) :: parts => t.All P parent ∧ AllParts P parent parts

end

variable {P : Option Kind → Label → List (Role × Tree) → Prop} {parent : Option Kind} {role : Role}
  {parts : List (Role × Tree)}

/-- A property holds all through a tree if it holds of the root and all through each part. -/
@[simp] theorem all_node (label : Label) :
    (node label parts).All P parent ↔ P parent label parts ∧ AllParts P label.kind parts := by
  rw [All]

/-- A property holds all through the parts if it holds all through each of them. -/
theorem allParts_iff : AllParts P parent parts ↔ ∀ part ∈ parts, part.2.All P parent := by
  induction parts with
  | nil => simp [AllParts]
  | cons part parts ih => simp [AllParts, ih]

@[simp] theorem allParts_nil : AllParts P parent [] := by
  rw [AllParts]
  trivial

@[simp] theorem allParts_cons (t : Tree) :
    AllParts P parent ((role, t) :: parts) ↔ t.All P parent ∧ AllParts P parent parts := by
  rw [AllParts]

@[simp] theorem allParts_append (more : List (Role × Tree)) :
    AllParts P parent (parts ++ more) ↔ AllParts P parent parts ∧ AllParts P parent more := by
  simp only [allParts_iff, List.forall_mem_append]

@[simp] theorem allParts_optional (t : Option Tree) :
    AllParts P parent (optional role t) ↔ ∀ u, t = some u → u.All P parent := by
  cases t <;> simp [optional]

@[simp] theorem allParts_items (ts : List Tree) :
    AllParts P parent (items ts) ↔ ∀ t ∈ ts, t.All P parent := by
  simp [items, allParts_iff]

/-- A property that holds all through a tree holds of its root. -/
theorem All.root {t : Tree} (h : t.All P parent) : P parent t.label t.parts := by
  obtain ⟨label, parts⟩ := t
  exact ((all_node label).mp h).1

/-- A property that holds all through a tree holds all through each part, below the root's kind. -/
theorem All.part {t u : Tree} (h : t.All P parent) (hu : (role, u) ∈ t.parts) :
    u.All P t.label.kind := by
  obtain ⟨label, parts⟩ := t
  exact allParts_iff.mp ((all_node label).mp h).2 (role, u) hu

/-- What holds of all nodes of a tree holds of those at the ends of paths. -/
theorem All.path {root y : Occurrence} {above : List Occurrence} (h : root.tree.All P none)
    (hpath : root.Path y above) : y.tree.All P (above.head?.map (·.label.kind)) := by
  induction hpath with
  | root => exact h
  | part hpath hy ih => exact ih.part (Occurrence.mem_parts hy)

/-! ## Shapes -/

mutual

/-- A tree is contained if, apart from the insides of functions, it declares no variables, parameters or
functions and returns nothing. -/
def Contained : Tree → Prop
  | .node label parts =>
    label.kind = .function ∧ label.declared = false
      ∨ (label.kind ≠ .function ∧ label.kind ≠ .variable ∧ label.kind ≠ .parameter ∧ label.kind ≠ .ret)
        ∧ ContainedParts parts

/-- The same of the children of a node. -/
def ContainedParts : List (Role × Tree) → Prop
  | [] => True
  | (_, t) :: parts => t.Contained ∧ ContainedParts parts

end

/-- Parts are contained if each of them is. -/
theorem containedParts_iff : ContainedParts parts ↔ ∀ part ∈ parts, part.2.Contained := by
  induction parts with
  | nil => simp [ContainedParts]
  | cons part parts ih => simp [ContainedParts, ih]

/-- A node is contained if it is a function that is not declared, or declares nothing, returns nothing and
has contained parts only. -/
@[simp] theorem contained_node (label : Label) : (node label parts).Contained
    ↔ label.kind = .function ∧ label.declared = false
      ∨ (label.kind ≠ .function ∧ label.kind ≠ .variable ∧ label.kind ≠ .parameter ∧ label.kind ≠ .ret)
        ∧ ContainedParts parts := by
  rw [Contained]

@[simp] theorem containedParts_nil : ContainedParts [] := by
  rw [ContainedParts]
  trivial

@[simp] theorem containedParts_cons (t : Tree) :
    ContainedParts ((role, t) :: parts) ↔ t.Contained ∧ ContainedParts parts := by
  rw [ContainedParts]

@[simp] theorem containedParts_append (more : List (Role × Tree)) :
    ContainedParts (parts ++ more) ↔ ContainedParts parts ∧ ContainedParts more := by
  simp only [containedParts_iff, List.forall_mem_append]

@[simp] theorem containedParts_optional (t : Option Tree) :
    ContainedParts (optional role t) ↔ ∀ u, t = some u → u.Contained := by
  cases t <;> simp [optional]

@[simp] theorem containedParts_items (ts : List Tree) :
    ContainedParts (items ts) ↔ ∀ t ∈ ts, t.Contained := by
  simp [items, containedParts_iff]

/-- The target comes first, then the expression, then the items. -/
def TargetExprItems (parts : List (Role × Tree)) : Prop :=
  ∃ target expr children,
    parts = optional .target target ++ (optional .expr expr ++ items children)

/-- The expression comes first, then the items, and there is no target. -/
def ExprItems (parts : List (Role × Tree)) : Prop :=
  ∃ expr children, parts = optional .expr expr ++ items children

/-- The target comes first, then the items, and there is no expression. -/
def TargetItems (parts : List (Role × Tree)) : Prop :=
  ∃ target children, parts = optional .target target ++ items children

/-- Parameters come first, then what is not a parameter as the body. -/
def ParametersBody (parts : List (Role × Tree)) : Prop :=
  ∃ parameters body, parts = items parameters ++ [(.expr, body)]
    ∧ (∀ t ∈ parameters, t.label.kind = .parameter) ∧ body.label.kind ≠ .parameter

/-- The roles that the children of a node may have, and their order. What stands in a return statement or
a parameter is contained. -/
def Shaped (kind : Kind) (parts : List (Role × Tree)) : Prop :=
  match kind with
  | .forOf | .forIn | .propertyAccess | .elementAccess | .call | .new | .assign | .binary
  | .property => TargetExprItems parts
  | .ifElse | .conditional | .unary | .exprStatement | .variable => ExprItems parts
  | .ret | .parameter => ExprItems parts ∧ ContainedParts parts
  | .function => ParametersBody parts
  | _ => TargetItems parts

section Shapes

variable (a b : Tree) (t : Option Tree) (ts : List Tree)

@[simp] theorem targetExprItems_target : TargetExprItems [(.target, a)] :=
  ⟨some a, none, [], rfl⟩

@[simp] theorem targetExprItems_expr : TargetExprItems [(.expr, b)] :=
  ⟨none, some b, [], rfl⟩

@[simp] theorem targetExprItems_target_expr : TargetExprItems [(.target, a), (.expr, b)] :=
  ⟨some a, some b, [], rfl⟩

@[simp] theorem targetExprItems_target_items : TargetExprItems ((.target, a) :: items ts) :=
  ⟨some a, none, ts, rfl⟩

@[simp] theorem targetExprItems_target_expr_items :
    TargetExprItems ((.target, a) :: (.expr, b) :: items ts) :=
  ⟨some a, some b, ts, rfl⟩

@[simp] theorem exprItems_nil : ExprItems [] := ⟨none, [], rfl⟩

@[simp] theorem exprItems_optional : ExprItems (optional .expr t) := ⟨t, [], (List.append_nil _).symm⟩

@[simp] theorem exprItems_expr : ExprItems [(.expr, a)] := ⟨some a, [], rfl⟩

@[simp] theorem exprItems_expr_items : ExprItems ((.expr, a) :: items ts) := ⟨some a, ts, rfl⟩

@[simp] theorem targetItems_nil : TargetItems [] := ⟨none, [], rfl⟩

@[simp] theorem targetItems_items : TargetItems (items ts) := ⟨none, ts, rfl⟩

@[simp] theorem targetItems_optional_items : TargetItems (optional .target t ++ items ts) :=
  ⟨t, ts, rfl⟩

end Shapes

/-- What may stand below a node of kind `parent`: children in the order of their kind, a label that is
skipped only as that of a parameter without a name, a property or a construct without a kind of its own,
and parameters only in functions. -/
def Proper (parent : Option Kind) (label : Label) (parts : List (Role × Tree)) : Prop :=
  Shaped label.kind parts
    ∧ (label.unsupported = true →
      label.kind = .other ∨ label.kind = .parameter ∧ label.name = "" ∨ label.kind = .property)
    ∧ (label.kind = .parameter → parent = some .function)

variable {span : Span} {ts : List Tree} {initial : Option Tree}

@[simp] theorem leaf_all (label : Label) : (leaf label).All Proper parent ↔ Proper parent label [] := by
  simp [leaf]

/-- A skipped construct is proper if what stands in it is. -/
@[simp] theorem skipped_all (what : String) :
    (skipped span what ts).All Proper parent ↔ ∀ t ∈ ts, t.All Proper (some .other) := by
  simp [skipped, Proper, Shaped]

/-- An unmodelled construct is proper if what stands in it is. -/
@[simp] theorem other_all (what : String) :
    (other span what ts).All Proper parent ↔ ∀ t ∈ ts, t.All Proper (some .other) := by
  simp [other, Proper, Shaped]

/-- A parameter is proper below a function if its default is, and the default keeps its names to itself.
-/
@[simp] theorem parameter_all (target : Script.Target) (ordinal : Nat) :
    (parameter target ordinal initial).All Proper (some .function)
      ↔ ∀ t, initial = some t → t.Contained ∧ t.All Proper (some .parameter) := by
  cases target <;> simp [parameter, Proper, Shaped, imp_and, forall_and]

/-- A rest parameter is proper below a function. -/
@[simp] theorem restParameter_all (target : Script.Target) (ordinal : Nat) :
    (restParameter target ordinal).All Proper (some .function) := by
  cases target <;> simp [restParameter, Proper, Shaped]

/-- A declarator is proper if its initial value is. -/
@[simp] theorem declarator_all (keyword : String) (target : Script.Target) (stop : Option Nat)
    (h : ∀ parent t, initial = some t → t.All Proper parent) :
    (declarator keyword target stop initial).All Proper parent := by
  cases target <;> simp +contextual [declarator, Proper, Shaped, h]

/-- A declaration is proper if each of its declarators is. -/
@[simp] theorem declaration_all (keyword : String) :
    (declaration span keyword ts).All Proper parent ↔ ∀ t ∈ ts, t.All Proper (some .varStatement) := by
  simp [declaration, Proper, Shaped]

/-- The tree of a parameter is a parameter. -/
theorem kind_parameter (target : Script.Target) (ordinal : Nat) :
    (parameter target ordinal initial).label.kind = .parameter := by
  cases target <;> rfl

/-- The tree of a rest parameter is a parameter. -/
theorem kind_restParameter (target : Script.Target) (ordinal : Nat) :
    (restParameter target ordinal).label.kind = .parameter := by
  cases target <;> rfl

end Tree

namespace Script

open LayoutInference.Tree

/-! ## Expressions are contained -/

mutual

/-- An expression declares nothing and returns nothing outside the functions in it. -/
theorem Expr.toTree_contained : (e : Expr) → e.toTree.Contained
  | .identifier .. | .number .. | .string .. | .boolean .. | .null .. | .regexp .. | .hole
  | .this .. | .classLiteral .. | .pattern .. | .unknown .. => by
    simp [Expr.toTree, leaf, other, skipped]
  | .template _ tag parts => by
    simpa [Expr.toTree] using ⟨optExprTree_contained tag, exprTrees_contained parts⟩
  | .array _ elements => by
    simpa [Expr.toTree] using exprTrees_contained elements
  | .object _ properties => by
    simpa [Expr.toTree] using propertyTrees_contained properties
  | .dot _ object _ => by simpa [Expr.toTree] using object.toTree_contained
  | .bracket _ object key => by
    simpa [Expr.toTree] using ⟨object.toTree_contained, key.toTree_contained⟩
  | .call _ callee arguments | .new _ callee arguments => by
    simpa [Expr.toTree] using ⟨callee.toTree_contained, exprTrees_contained arguments⟩
  | .assign _ _ left right | .binary _ _ left right => by
    simpa [Expr.toTree] using ⟨left.toTree_contained, right.toTree_contained⟩
  | .unary _ _ operand => by simpa [Expr.toTree] using operand.toTree_contained
  | .conditional _ test consequent alternate => by
    simpa [Expr.toTree]
      using ⟨test.toTree_contained, consequent.toTree_contained, alternate.toTree_contained⟩
  | .function .. | .arrow .. | .arrowExpr .. => by simp [Expr.toTree, Tree.function]
  | .chained _ inner => by simpa [Expr.toTree] using inner.toTree_contained
  | .sequence _ parts => by simpa [Expr.toTree, other] using exprTrees_contained parts
  | .await _ argument => by simpa [Expr.toTree, other] using argument.toTree_contained
  | .spread _ argument => by simpa [Expr.toTree, skipped] using argument.toTree_contained
  | .yield _ argument => by
    simpa [Expr.toTree, other] using optExprTree_contained argument

/-- Expressions in a list declare nothing outside themselves and return from nothing outside themselves.
-/
theorem exprTrees_contained : (es : List Expr) → ∀ t ∈ exprTrees es, t.Contained
  | [] => by simp [exprTrees]
  | e :: es => by
    rw [exprTrees]
    exact List.forall_mem_cons.mpr ⟨e.toTree_contained, exprTrees_contained es⟩

/-- An optional expression declares nothing outside itself and returns from nothing outside itself. -/
theorem optExprTree_contained : (e : Option Expr) → ∀ t, optExprTree e = some t → t.Contained
  | none => by simp [optExprTree]
  | some e => by simpa [optExprTree] using e.toTree_contained

/-- A property of an object literal declares nothing outside itself. -/
theorem Property.toTree_contained : (p : Property) → p.toTree.Contained
  | .keyed _ form computed key value => by
    cases computed <;> cases form <;>
      simp [Property.toTree, key.toTree_contained, value.toTree_contained]
  | .shorthand .. => by simp [Property.toTree, leaf]
  | .spread .. => by simp [Property.toTree, skipped]

/-- The properties of an object literal declare nothing outside themselves. -/
theorem propertyTrees_contained : (ps : List Property) → ∀ t ∈ propertyTrees ps, t.Contained
  | [] => by simp [propertyTrees]
  | p :: ps => by
    rw [propertyTrees]
    exact List.forall_mem_cons.mpr ⟨p.toTree_contained, propertyTrees_contained ps⟩

end

/-! ## Scripts are proper -/

/-- The trees of a parameter list are parameters. -/
theorem kind_parameterTrees (ordinal : Nat) (parameters : List Binding) :
    ∀ t ∈ parameterTrees ordinal parameters, t.label.kind = .parameter := by
  induction parameters generalizing ordinal with
  | nil => simp [parameterTrees]
  | cons b bs ih =>
    obtain ⟨target, initial⟩ := b
    rw [parameterTrees]
    exact List.forall_mem_cons.mpr ⟨kind_parameter target ordinal, ih (ordinal + 1)⟩

/-- A function is proper if its parameters and its body are. -/
theorem function_all {label : Label} (hlabel : label.kind = .function ∧ label.unsupported = false)
    {parameters : List Binding} {rest : Option Target} {body : Tree}
    (hparameters : ∀ t ∈ parameterTrees 0 parameters, t.All Proper (some .function))
    (hkind : body.label.kind ≠ .parameter) (hbody : body.All Proper (some .function))
    {parent : Option Kind} :
    (Tree.function label
      (parameterTrees 0 parameters ++ rest.toList.map (restParameter · parameters.length))
      body).All Proper parent := by
  have hkinds : ∀ t ∈ parameterTrees 0 parameters ++ rest.toList.map (restParameter · parameters.length),
      t.label.kind = .parameter :=
    List.forall_mem_append.mpr ⟨kind_parameterTrees 0 parameters, by simp [kind_restParameter]⟩
  simp only [Tree.function, all_node, Proper, hlabel, Shaped]
  refine ⟨⟨⟨_, body, rfl, hkinds, hkind⟩, by simp, by simp⟩, ?_⟩
  simpa [or_imp, forall_and] using ⟨hparameters, hbody⟩

/-- The tree of a block is a block. -/
theorem kind_block (b : Block) : b.toTree.label.kind = .block := by
  obtain ⟨span, body⟩ := b
  rfl

mutual

/-- All nodes of the tree of an expression are proper. -/
theorem Expr.toTree_all {parent : Option Kind} : (e : Expr) → e.toTree.All Proper parent
  | .identifier .. | .number .. | .string .. | .boolean .. | .null .. | .regexp .. | .hole
  | .this .. | .classLiteral .. | .pattern .. | .unknown .. => by
    simp [Expr.toTree, Proper, Shaped]
  | .template _ tag parts => by
    simpa [Expr.toTree, Proper, Shaped] using ⟨optExprTree_all tag, exprTrees_all parts⟩
  | .array _ elements => by
    simpa [Expr.toTree, Proper, Shaped] using exprTrees_all elements
  | .object _ properties => by
    simpa [Expr.toTree, Proper, Shaped] using propertyTrees_all properties
  | .dot _ object _ => by simpa [Expr.toTree, Proper, Shaped] using object.toTree_all
  | .bracket _ object key => by
    simpa [Expr.toTree, Proper, Shaped] using ⟨object.toTree_all, key.toTree_all⟩
  | .call _ callee arguments | .new _ callee arguments => by
    simpa [Expr.toTree, Proper, Shaped] using ⟨callee.toTree_all, exprTrees_all arguments⟩
  | .assign _ _ left right | .binary _ _ left right => by
    simpa [Expr.toTree, Proper, Shaped] using ⟨left.toTree_all, right.toTree_all⟩
  | .unary _ _ operand => by simpa [Expr.toTree, Proper, Shaped] using operand.toTree_all
  | .conditional _ test consequent alternate => by
    simpa [Expr.toTree, Proper, Shaped]
      using ⟨test.toTree_all, consequent.toTree_all, alternate.toTree_all⟩
  | .function _ _ parameters rest body | .arrow _ parameters rest body => by
    rw [Expr.toTree]
    exact function_all ⟨rfl, rfl⟩ (parameterTrees_all 0 parameters) (by simp [kind_block])
      body.toTree_all
  | .arrowExpr _ parameters rest _ body => by
    rw [Expr.toTree]
    refine function_all ⟨rfl, rfl⟩ (parameterTrees_all 0 parameters) (by simp [Tree.label]) ?_
    simpa [Proper, Shaped] using ⟨body.toTree_contained, body.toTree_all⟩
  | .chained _ inner => by simpa [Expr.toTree] using inner.toTree_all
  | .sequence _ parts => by simpa [Expr.toTree] using exprTrees_all parts
  | .await _ argument | .spread _ argument => by simpa [Expr.toTree] using argument.toTree_all
  | .yield _ argument => by
    simpa [Expr.toTree] using optExprTree_all argument

/-- The trees of expressions are proper below any kind of node. -/
theorem exprTrees_all {parent : Option Kind} : (es : List Expr) → ∀ t ∈ exprTrees es, t.All Proper parent
  | [] => by simp [exprTrees]
  | e :: es => by
    rw [exprTrees]
    exact List.forall_mem_cons.mpr ⟨e.toTree_all, exprTrees_all es⟩

/-- The tree of an optional expression is proper below any kind of node. -/
theorem optExprTree_all {parent : Option Kind} : (e : Option Expr) →
    ∀ t, optExprTree e = some t → t.All Proper parent
  | none => by simp [optExprTree]
  | some e => by simpa [optExprTree] using e.toTree_all

/-- The tree of a property is proper below any kind of node. -/
theorem Property.toTree_all {parent : Option Kind} : (p : Property) → p.toTree.All Proper parent
  | .keyed _ form computed key value => by
    cases computed <;> cases form <;>
      simp [Property.toTree, Proper, Shaped, key.toTree_all, value.toTree_all]
  | .shorthand .. => by simp [Property.toTree, Proper, Shaped]
  | .spread .. => by simp [Property.toTree]

/-- The trees of properties are proper below any kind of node. -/
theorem propertyTrees_all {parent : Option Kind} : (ps : List Property) →
    ∀ t ∈ propertyTrees ps, t.All Proper parent
  | [] => by simp [propertyTrees]
  | p :: ps => by
    rw [propertyTrees]
    exact List.forall_mem_cons.mpr ⟨p.toTree_all, propertyTrees_all ps⟩

/-- The tree of a binding is proper below any kind of node. -/
theorem Binding.toTree_all {parent : Option Kind} (keyword : String) :
    (b : Binding) → (b.toTree keyword).All Proper parent
  | .mk _ initial => declarator_all _ _ _ fun _ => optExprTree_all initial

/-- The trees of bindings are proper below any kind of node. -/
theorem bindingTrees_all {parent : Option Kind} (keyword : String) : (bs : List Binding) →
    ∀ t ∈ bindingTrees keyword bs, t.All Proper parent
  | [] => by simp [bindingTrees]
  | b :: bs => by
    rw [bindingTrees]
    exact List.forall_mem_cons.mpr ⟨b.toTree_all keyword, bindingTrees_all keyword bs⟩

/-- The trees of parameters are proper below a function. -/
theorem parameterTrees_all (ordinal : Nat) : (bs : List Binding) →
    ∀ t ∈ parameterTrees ordinal bs, t.All Proper (some .function)
  | [] => by simp [parameterTrees]
  | .mk _ initial :: bs => by
    rw [parameterTrees]
    refine List.forall_mem_cons.mpr ⟨(parameter_all ..).mpr ?_, parameterTrees_all (ordinal + 1) bs⟩
    exact fun t ht => ⟨optExprTree_contained initial t ht, optExprTree_all initial t ht⟩

/-- All nodes of the tree of a statement are proper. -/
theorem Stmt.toTree_all {parent : Option Kind} : (s : Stmt) →
    ∀ t, s.toTree = some t → t.All Proper parent
  | .block body => by simpa [Stmt.toTree] using body.toTree_all
  | .expression _ expr => by simpa [Stmt.toTree, Proper, Shaped] using expr.toTree_all
  | .var _ bindings | .lexical _ _ bindings => by
    simpa [Stmt.toTree] using bindingTrees_all _ bindings
  | .function _ _ parameters rest body => by
    simp only [Stmt.toTree, Option.some.injEq, forall_eq']
    exact function_all ⟨rfl, rfl⟩ (parameterTrees_all 0 parameters) (by simp [kind_block])
      body.toTree_all
  | .ifElse _ test consequent alternate => by
    simpa [Stmt.toTree, Proper, Shaped, or_imp, forall_and]
      using ⟨test.toTree_all, consequent.toTree_all, optStmtTree_all alternate⟩
  | .forLoop _ head test update body => by
    simpa [Stmt.toTree, Proper, Shaped, or_imp, forall_and] using
      ⟨loopHeadTree_all head, optExprTree_all test, optExprTree_all update, body.toTree_all⟩
  | .whileLoop _ test body => by
    simpa [Stmt.toTree, Proper, Shaped] using ⟨test.toTree_all, body.toTree_all⟩
  | .doWhile _ body test => by
    simpa [Stmt.toTree, Proper, Shaped, or_imp, forall_and]
      using ⟨body.toTree_all, test.toTree_all⟩
  | .forOf _ into source body | .forIn _ into source body => by
    simpa [Stmt.toTree, Proper, Shaped]
      using ⟨into.toTree_all, source.toTree_all, body.toTree_all⟩
  | .ret _ argument => by
    simpa [Stmt.toTree, Proper, Shaped]
      using ⟨optExprTree_contained argument, optExprTree_all argument⟩
  | .tryCatch _ body handler finalizer => by
    simpa [Stmt.toTree, or_imp, forall_and]
      using ⟨body.toTree_all, handlerTree_all handler, optBlockTree_all finalizer⟩
  | .throw _ argument => by simpa [Stmt.toTree] using argument.toTree_all
  | .switch _ discriminant clauses => by
    simpa [Stmt.toTree] using ⟨discriminant.toTree_all, clauseTrees_all clauses⟩
  | .labelled _ body => by simpa [Stmt.toTree] using body.toTree_all
  | .withObject _ object body => by
    simpa [Stmt.toTree] using ⟨object.toTree_all, body.toTree_all⟩
  | .classDeclaration _ => by simp [Stmt.toTree]
  | .empty _ => by simp [Stmt.toTree]

/-- The trees of statements are proper below any kind of node. -/
theorem stmtTrees_all {parent : Option Kind} : (ss : List Stmt) → ∀ t ∈ stmtTrees ss, t.All Proper parent
  | [] => by simp [stmtTrees]
  | s :: ss => by
    rw [stmtTrees]
    exact List.forall_mem_append.mpr ⟨by simpa using s.toTree_all, stmtTrees_all ss⟩

/-- The tree of an optional statement is proper below any kind of node. -/
theorem optStmtTree_all {parent : Option Kind} : (s : Option Stmt) →
    ∀ t, optStmtTree s = some t → t.All Proper parent
  | none => by simp [optStmtTree]
  | some s => by simpa [optStmtTree] using s.toTree_all

/-- The tree of a block is proper below any kind of node. -/
theorem Block.toTree_all {parent : Option Kind} : (b : Block) → b.toTree.All Proper parent
  | .mk _ body => by simpa [Block.toTree, Proper, Shaped] using stmtTrees_all body

/-- The tree of an optional block is proper below any kind of node. -/
theorem optBlockTree_all {parent : Option Kind} : (b : Option Block) →
    ∀ t, optBlockTree b = some t → t.All Proper parent
  | none => by simp [optBlockTree]
  | some b => by simpa [optBlockTree] using b.toTree_all

/-- The tree of a loop's head is proper below any kind of node. -/
theorem loopHeadTree_all {parent : Option Kind} : (h : Option LoopHead) →
    ∀ t, loopHeadTree h = some t → t.All Proper parent
  | none => by simp [loopHeadTree]
  | some (.expression expr) => by simpa [loopHeadTree] using expr.toTree_all
  | some (.var _ bindings) | some (.lexical _ _ bindings) => by
    simpa [loopHeadTree] using bindingTrees_all _ bindings

/-- The tree of a loop's target is proper below any kind of node. -/
theorem LoopTarget.toTree_all {parent : Option Kind} : (t : LoopTarget) → t.toTree.All Proper parent
  | .var binding => by simpa [LoopTarget.toTree] using binding.toTree_all "var"
  | .lexical _ _ => by simp [LoopTarget.toTree]
  | .expression expr => by simpa [LoopTarget.toTree] using expr.toTree_all

/-- The trees of switch clauses are proper below any kind of node. -/
theorem clauseTrees_all {parent : Option Kind} : (cs : List Clause) →
    ∀ t ∈ clauseTrees cs, t.All Proper parent
  | [] => by simp [clauseTrees]
  | .mk _ test body :: cs => by
    rw [clauseTrees]
    refine List.forall_mem_cons.mpr ⟨?_, clauseTrees_all cs⟩
    simpa [Proper, Shaped, or_imp, forall_and]
      using ⟨optExprTree_all test, stmtTrees_all body⟩

/-- The tree of a handler is proper below any kind of node. -/
theorem handlerTree_all {parent : Option Kind} : (h : Option Handler) →
    ∀ t, handlerTree h = some t → t.All Proper parent
  | none => by simp [handlerTree]
  | some (.mk _ parameter body) => by
    simpa [handlerTree, Proper, Shaped, or_imp, forall_and] using stmtTrees_all body

end

/-- All nodes of the tree of a script are proper. -/
theorem toTree_all (script : Script) : script.toTree.All Proper none := by
  simpa [toTree, Proper, Shaped] using stmtTrees_all script.body

end Script

/-! ## Children in source order -/

namespace Tree

/-- The parts behind others are numbered from where those end. -/
theorem rootIds_append (id : NodeId) (parts more : List (Role × Tree)) :
    rootIds id (parts ++ more) = rootIds id parts ++ rootIds (id + partsSize parts) more := by
  induction parts generalizing id with
  | nil => rfl
  | cons part parts ih =>
    obtain ⟨role, t⟩ := part
    rw [List.cons_append, rootIds, rootIds, ih, partsSize, Nat.add_assoc, List.cons_append]

/-- An optional part has one id, the next, if it is there. -/
theorem rootIds_optional (id : NodeId) (role : Role) (t : Option Tree) :
    rootIds id (optional role t) = (t.map fun _ => id).toList.map (role, ·) := by
  cases t <;> rfl

/-- Items get ids in the role of items only. -/
theorem rootIds_items (id : NodeId) (ts : List Tree) :
    ∃ ids : List NodeId, rootIds id (items ts) = ids.map (.item, ·) := by
  induction ts generalizing id with
  | nil => exact ⟨[], rfl⟩
  | cons t ts ih =>
    obtain ⟨ids, hids⟩ := ih (id + t.size)
    exact ⟨id :: ids, congrArg (((.item, id) : Role × NodeId) :: ·) hids⟩

end Tree

namespace Node

variable (n : Node)

/-- Children are put one list after the other. -/
theorem putAll_append (children more : List (Role × NodeId)) :
    n.putAll (children ++ more) = (n.putAll children).putAll more :=
  List.foldl_append

/-- A child in the role of target becomes the target. -/
theorem putAll_target (id : Option NodeId) :
    n.putAll (id.toList.map (.target, ·)) = { n with target := id.or n.target } := by
  cases id <;> rfl

/-- A child in the role of expression becomes the expression. -/
theorem putAll_expr (id : Option NodeId) :
    n.putAll (id.toList.map (.expr, ·)) = { n with expr := id.or n.expr } := by
  cases id <;> rfl

/-- Children in the role of items are appended to the items. -/
theorem putAll_items (ids : List NodeId) :
    n.putAll (ids.map (.item, ·)) = { n with items := n.items ++ ids } := by
  induction ids generalizing n with
  | nil => simp [putAll]
  | cons id ids ih =>
    rw [putAll, List.map_cons, List.foldl_cons]
    refine (ih (n.put .item id)).trans ?_
    simp [put]

open LayoutInference.Tree

/-- Whatever order of children the kind of a node has, it lists them in that order. -/
theorem children_putAll {n : Node} (htarget : n.target = none) (hexpr : n.expr = none)
    (hitems : n.items = []) {parts : List (Role × Tree)} (h : Shaped n.kind parts) (id : NodeId) :
    (n.putAll (rootIds id parts)).children = (rootIds id parts).map (·.2) := by
  cases hkind : n.kind with
  | forOf | forIn | propertyAccess | elementAccess | call | new | assign | binary | property =>
    rw [hkind] at h
    obtain ⟨target, expr, ts, rfl⟩ := (h : TargetExprItems parts)
    obtain ⟨ids, hids⟩ := rootIds_items (id + partsSize (optional .target target)
      + partsSize (optional .expr expr)) ts
    simp [rootIds_append, rootIds_optional, hids, putAll_append, putAll_target, putAll_expr,
      putAll_items, children, hkind, htarget, hexpr, hitems, Function.comp_def]
  | ifElse | conditional | unary | exprStatement | «variable» =>
    rw [hkind] at h
    obtain ⟨expr, ts, rfl⟩ := (h : ExprItems parts)
    obtain ⟨ids, hids⟩ := rootIds_items (id + partsSize (optional .expr expr)) ts
    simp [rootIds_append, rootIds_optional, hids, putAll_append, putAll_expr,
      putAll_items, children, hkind, hexpr, hitems, Function.comp_def]
  | ret | parameter =>
    rw [hkind] at h
    obtain ⟨⟨expr, ts, rfl⟩, -⟩ := (h : ExprItems parts ∧ _)
    obtain ⟨ids, hids⟩ := rootIds_items (id + partsSize (optional .expr expr)) ts
    simp [rootIds_append, rootIds_optional, hids, putAll_append, putAll_expr,
      putAll_items, children, hkind, hexpr, hitems, Function.comp_def]
  | function =>
    rw [hkind] at h
    obtain ⟨ts, body, rfl, -⟩ := (h : ParametersBody parts)
    obtain ⟨ids, hids⟩ := rootIds_items id ts
    rw [rootIds_append, hids, putAll_append, putAll_items]
    simp [rootIds, putAll, put, children, hkind, hexpr, hitems, Function.comp_def]
  | _ =>
    rw [hkind] at h
    obtain ⟨target, ts, rfl⟩ := (h : TargetItems parts)
    obtain ⟨ids, hids⟩ := rootIds_items (id + partsSize (optional .target target)) ts
    simp [rootIds_append, rootIds_optional, hids, putAll_append, putAll_target,
      putAll_items, children, hkind, htarget, hexpr, hitems, Function.comp_def]

end Node

/-- A proper node lists its children in the order in which they were lowered. -/
theorem Occurrence.children_node {x : Occurrence} {parent : Option Kind}
    (h : Tree.Proper parent x.label x.tree.parts) : x.node.children = x.parts.map (·.id) := by
  have hids : x.parts.map (·.id) = (Tree.rootIds (x.id + 1) x.tree.parts).map (·.2) := by
    rw [parts, ← map_role_id_consecutive x.inner x.inner x.later, List.map_map]
    rfl
  rw [hids]
  exact Node.children_putAll rfl rfl rfl h.1 (x.id + 1)

namespace Program

variable {source : Source} {script : Script} {p : Program}

/-- All other constructs of a program are looked at. -/
theorem supported_of_kind (h : ofScript source script = .ok p) {n : Node}
    (hn : n ∈ p.nodes.toList)
    (hkind : n.kind ≠ .other ∧ n.kind ≠ .parameter ∧ n.kind ≠ .property) :
    n.unsupported = false := by
  obtain ⟨rfl, -⟩ := ofScript_eq_ok_iff.mp h
  obtain ⟨y, above, hpath, rfl⟩ := exists_path hn
  have hproper := (script.toTree_all.path hpath).root
  rw [script.toTree.shown_toLabel] at hkind ⊢
  by_contra hskipped
  obtain ⟨hother, hparameter, hproperty⟩ := hkind
  rcases hproper.2.1 (by simpa using hskipped) with h | h | h
  · exact hother h
  · exact hparameter h.1
  · exact hproperty h

/-- No assignment of a script's program is an unsupported construct. -/
theorem assignment_supported (h : ofScript source script = .ok p) {n : Node}
    (hn : n ∈ p.nodes.toList) (hkind : n.kind = .assign) : n.unsupported = false :=
  supported_of_kind h hn (by simp [hkind])

/-- Only a parameter without a name is skipped. -/
theorem supported_of_named (h : ofScript source script = .ok p) {n : Node}
    (hn : n ∈ p.nodes.toList) (hkind : n.kind = .variable ∨ n.kind = .parameter)
    (hname : n.name ≠ "") : n.unsupported = false := by
  obtain ⟨rfl, -⟩ := ofScript_eq_ok_iff.mp h
  obtain ⟨y, above, hpath, rfl⟩ := exists_path hn
  have hproper := (script.toTree_all.path hpath).root
  rw [script.toTree.shown_toLabel] at hkind hname ⊢
  by_contra hskipped
  rcases hproper.2.1 (by simpa using hskipped) with h | ⟨-, h⟩ | h
  · exact absurd (h ▸ hkind) (by decide)
  · exact hname h
  · exact absurd (h ▸ hkind) (by decide)

/-- A parameter stands right below its function. -/
theorem function_of_parameter {y : Occurrence} {above : List Occurrence}
    (h : script.toTree.whole.Path y above) (hkind : y.label.kind = .parameter) :
    ∃ x ∈ above.head?, x.label.kind = .function := by
  have hproper := (script.toTree_all.path h).root
  exact Option.map_eq_some_iff.mp (hproper.2.2 hkind)

end Program

end LayoutInference
