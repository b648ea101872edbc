import LayoutInference.Script

/-!
# The uniform syntax tree

A script has some sixty forms; the analysis distinguishes thirty kinds of node. `Tree` is a script
seen through those kinds: each node has a label and its children in source order, each in the role of a
target, an expression or an item. `Script.toTree` makes this view once, so that lowering and scoping
recurse over one small type.

Empty statements and labels leave no node, optional chains are looked through, and a construct the
analysis has no treatment for becomes a node of kind `other` that says what was written.
-/

namespace LayoutInference

/-- The kinds of node that the analysis tells apart. -/
inductive Kind where
  | other
  | program
  | block
  | varStatement
  | exprStatement
  | ifElse
  | loop
  | forOf
  | forIn
  | ret
  | function
  | variable
  | parameter
  | identifier
  | number
  | string
  | boolean
  | null
  | template
  | arrayLiteral
  | objectLiteral
  | property
  | propertyAccess
  | elementAccess
  | call
  | new
  | assign
  | binary
  | unary
  | conditional
deriving DecidableEq, Repr

/-- The name of a kind. -/
def Kind.text : Kind → String
  | .other => "other"
  | .program => "program"
  | .block => "block"
  | .varStatement => "var-statement"
  | .exprStatement => "expression-statement"
  | .ifElse => "if"
  | .loop => "loop"
  | .forOf => "for-of"
  | .forIn => "for-in"
  | .ret => "return"
  | .function => "function"
  | .variable => "variable"
  | .parameter => "parameter"
  | .identifier => "identifier"
  | .number => "number"
  | .string => "string"
  | .boolean => "boolean"
  | .null => "null"
  | .template => "template"
  | .arrayLiteral => "array-literal"
  | .objectLiteral => "object-literal"
  | .property => "property"
  | .propertyAccess => "property-access"
  | .elementAccess => "element-access"
  | .call => "call"
  | .new => "new"
  | .assign => "assign"
  | .binary => "binary"
  | .unary => "unary"
  | .conditional => "conditional"

/-- What a node says about itself. The meaning of `name` and `value` depends on the kind: `value` is
the operator of an assignment, the keyword of a declaration, the text of a literal, or what a node of
kind `other` was written as. -/
structure Label where
  kind : Kind
  /-- The stretch of source, `⟨0, 0⟩` for a node without source. -/
  span : Span := ⟨0, 0⟩
  name : String := ""
  value : String := ""
  /-- The position of a parameter in its list. -/
  ordinal : Nat := 0
  /-- Marks a construct whose inside or meaning the analysis skips. -/
  unsupported : Bool := false
  /-- Marks a function that stands as a statement of its own. -/
  declared : Bool := false
  /-- Marks a `switch` clause without an end. -/
  endless : Bool := false
deriving DecidableEq, Repr

/-- What a child is to its node. -/
inductive Role where
  | target
  | expr
  | item
deriving DecidableEq, Repr

/-- A label with its children in source order, each in its role. What stands in a role depends on the
kind:

| kind                       | target       | expression   | items                        |
|----------------------------|--------------|--------------|------------------------------|
| program, block             |              |              | statements                   |
| varStatement               |              |              | declarations                 |
| exprStatement, ret         |              | expression   |                              |
| ifElse                     |              | test         | consequent, alternate        |
| loop                       |              |              | head, test, update, body     |
| forOf, forIn               | binding      | source       | body                         |
| function                   |              | body         | parameters                   |
| variable, parameter        |              | initial value|                              |
| template                   | tag          |              | substitutions                |
| arrayLiteral, objectLiteral|              |              | elements, properties         |
| property                   | computed key | value        |                              |
| propertyAccess             | object       |              |                              |
| elementAccess              | object       | key          |                              |
| call, new                  | callee       |              | arguments                    |
| assign, binary             | left side    | right side   |                              |
| unary                      |              | operand      |                              |
| conditional                |              | test         | both branches                |
| other                      |              |              | parts                        |
-/
inductive Tree where
  | node (label : Label) (parts : List (Role × Tree))

namespace Tree

/-- A child that may be left out, in its role. -/
def optional (role : Role) (child : Option Tree) : List (Role × Tree) := child.toList.map (role, ·)

/-- Children that are items. -/
def items (children : List Tree) : List (Role × Tree) := children.map (.item, ·)

/-- A node without children. -/
def leaf (label : Label) : Tree := .node label []

/-- A node of kind `other` that says what was written. -/
def other (span : Span) (what : String) (children : List Tree) : Tree :=
  .node { kind := .other, span, value := what } (items children)

/-- A node of kind `other` for a construct that the analysis skips. -/
def skipped (span : Span) (what : String) (children : List Tree) : Tree :=
  .node { kind := .other, span, value := what, unsupported := true } (items children)

/-- A parameter: a named one, or an unsupported one for a pattern. -/
def parameter (target : Script.Target) (ordinal : Nat) (initial : Option Tree) : Tree :=
  match target with
  | .name span name => .node { kind := .parameter, span, name, ordinal } (optional .expr initial)
  | .pattern span =>
    .node { kind := .parameter, span, value := "destructuring parameter", ordinal, unsupported := true }
      (optional .expr initial)

/-- The parameter that takes the remaining arguments. -/
def restParameter (target : Script.Target) (ordinal : Nat) : Tree :=
  match target with
  | .name span name => leaf { kind := .parameter, span, name, value := "rest", ordinal }
  | .pattern span =>
    leaf { kind := .parameter, span, value := "rest", ordinal, unsupported := true }

/-- A declarator with its keyword. A named one reaches to the end of its initial value. -/
def declarator (keyword : String) (target : Script.Target) (stop : Option Nat)
    (initial : Option Tree) : Tree :=
  match target with
  | .name span name =>
    .node { kind := .variable, span := ⟨span.start, stop.getD span.stop⟩, name, value := keyword }
      (optional .expr initial)
  | .pattern span => skipped span "destructuring declaration" initial.toList

/-- The keyword of a lexical declaration. -/
def lexicalKeyword (constant : Bool) : String := if constant then "const" else "let"

/-- A declaration with its keyword and its declarators. -/
def declaration (span : Span) (keyword : String) (declarators : List Tree) : Tree :=
  .node { kind := .varStatement, span, value := keyword } (items declarators)

/-- A function with its parameters and, after them, its body. -/
def function (label : Label) (parameters : List Tree) (body : Tree) : Tree :=
  .node label (items parameters ++ [(.expr, body)])

end Tree

namespace Script

open LayoutInference.Tree

/-- The name that a property key which is not computed stands for. -/
def Expr.keyName : Expr → String
  | .string _ value => value
  | .number _ literal => literal
  | .identifier _ name => name
  | _ => ""

/-- The end of an initial value. -/
def Expr.stop? (initial : Option Expr) : Option Nat :=
  (initial.bind Expr.span).map Span.stop

/-- The operator text of an assignment: `=`, or the binary operator followed by `=`. -/
def assignOperator (operator : String) : String := if operator = "=" then "=" else operator ++ "="

mutual

/-- The tree of an expression. -/
def Expr.toTree : Expr → Tree
  | .identifier span name => leaf { kind := .identifier, span, name }
  | .number span literal => leaf { kind := .number, span, value := literal }
  | .string span value => leaf { kind := .string, span, value }
  | .boolean span value => leaf { kind := .boolean, span, value := if value then "true" else "false" }
  | .null span => leaf { kind := .null, span }
  | .template span tag parts =>
    .node { kind := .template, span }
      (optional .target (optExprTree tag) ++ items (exprTrees parts))
  | .regexp span => other span "regexp" []
  | .hole => leaf { kind := .other, value := "hole" }
  | .array span elements => .node { kind := .arrayLiteral, span } (items (exprTrees elements))
  | .object span properties =>
    .node { kind := .objectLiteral, span } (items (propertyTrees properties))
  | .dot span object name => .node { kind := .propertyAccess, span, name } [(.target, object.toTree)]
  | .bracket span object key =>
    .node { kind := .elementAccess, span } [(.target, object.toTree), (.expr, key.toTree)]
  | .call span callee arguments =>
    .node { kind := .call, span } ((.target, callee.toTree) :: items (exprTrees arguments))
  | .new span callee arguments =>
    .node { kind := .new, span } ((.target, callee.toTree) :: items (exprTrees arguments))
  | .assign span operator left right =>
    .node { kind := .assign, span, value := assignOperator operator }
      [(.target, left.toTree), (.expr, right.toTree)]
  | .binary span operator left right =>
    .node { kind := .binary, span, value := operator }
      [(.target, left.toTree), (.expr, right.toTree)]
  | .unary span operator operand =>
    .node { kind := .unary, span, value := operator } [(.expr, operand.toTree)]
  | .conditional span test consequent alternate =>
    .node { kind := .conditional, span }
      ((.expr, test.toTree) :: items [consequent.toTree, alternate.toTree])
  | .function span name parameters rest body =>
    Tree.function { kind := .function, span, name }
      (parameterTrees 0 parameters ++ rest.toList.map (restParameter · parameters.length)) body.toTree
  | .arrow span parameters rest body =>
    Tree.function { kind := .function, span, value := "arrow" }
      (parameterTrees 0 parameters ++ rest.toList.map (restParameter · parameters.length)) body.toTree
  | .arrowExpr span parameters rest bodySpan body =>
    Tree.function { kind := .function, span, value := "arrow" }
      (parameterTrees 0 parameters ++ rest.toList.map (restParameter · parameters.length))
      (.node { kind := .block, span := bodySpan }
        (items [.node { kind := .ret, span := bodySpan } [(.expr, body.toTree)]]))
  | .chained _ inner => inner.toTree
  | .sequence span parts => other span "sequence" (exprTrees parts)
  | .this span => other span "this" []
  | .await span argument => other span "await" [argument.toTree]
  | .yield span argument => other span "yield" (optExprTree argument).toList
  | .spread span argument => skipped span "spread element" [argument.toTree]
  | .classLiteral span => skipped span "class expression" []
  | .pattern span => skipped span "destructuring pattern" []
  | .unknown span form => skipped span form []

/-- The trees of a list of expressions. -/
def exprTrees : List Expr → List Tree
  | [] => []
  | e :: es => e.toTree :: exprTrees es

/-- The tree of an expression that may be left out. -/
def optExprTree : Option Expr → Option Tree
  | none => none
  | some e => some e.toTree

/-- The tree of a property. Accessors are marked unsupported. -/
def Property.toTree : Property → Tree
  | .keyed span form computed key value =>
    let (accessor, unsupported) : String × Bool := match form with
      | .getter => ("get", true)
      | .setter => ("set", true)
      | .value | .method => ("", false)
    if computed then
      .node { kind := .property, span, value := accessor, unsupported }
        [(.target, key.toTree), (.expr, value.toTree)]
    else
      .node { kind := .property, span, name := key.keyName, value := accessor, unsupported }
        [(.expr, value.toTree)]
  | .shorthand span nameSpan name =>
    .node { kind := .property, span, name }
      [(.expr, leaf { kind := .identifier, span := nameSpan, name })]
  | .spread span => skipped span "spread property" []

/-- The trees of the properties of an object literal. -/
def propertyTrees : List Property → List Tree
  | [] => []
  | p :: ps => p.toTree :: propertyTrees ps

/-- The tree of a declarator with its keyword. -/
def Binding.toTree (keyword : String) : Binding → Tree
  | .mk target initial => declarator keyword target (Expr.stop? initial) (optExprTree initial)

/-- The trees of the declarators of one declaration. -/
def bindingTrees (keyword : String) : List Binding → List Tree
  | [] => []
  | b :: bs => b.toTree keyword :: bindingTrees keyword bs

/-- The trees of a parameter list, numbered from `ordinal`. -/
def parameterTrees (ordinal : Nat) : List Binding → List Tree
  | [] => []
  | .mk target initial :: bs =>
    Tree.parameter target ordinal (optExprTree initial) :: parameterTrees (ordinal + 1) bs

/-- The tree of a statement, if it leaves one. -/
def Stmt.toTree : Stmt → Option Tree
  | .block body => some body.toTree
  | .expression span expr => some (.node { kind := .exprStatement, span } [(.expr, expr.toTree)])
  | .var span bindings => some (declaration span "var" (bindingTrees "var" bindings))
  | .lexical span constant bindings =>
    some (declaration span (lexicalKeyword constant) (bindingTrees (lexicalKeyword constant) bindings))
  | .function span name parameters rest body =>
    some (Tree.function { kind := .function, span, name, declared := true }
      (parameterTrees 0 parameters ++ rest.toList.map (restParameter · parameters.length)) body.toTree)
  | .ifElse span test consequent alternate =>
    some (.node { kind := .ifElse, span }
      ((.expr, test.toTree) :: items (consequent.toTree.toList ++ (optStmtTree alternate).toList)))
  | .forLoop span head test update body =>
    some (.node { kind := .loop, span, value := "for" }
      (items ((loopHeadTree head).toList ++ (optExprTree test).toList ++ (optExprTree update).toList
        ++ body.toTree.toList)))
  | .whileLoop span test body =>
    some (.node { kind := .loop, span, value := "while" } (items (test.toTree :: body.toTree.toList)))
  | .doWhile span body test =>
    some (.node { kind := .loop, span, value := "do" } (items (body.toTree.toList ++ [test.toTree])))
  | .forOf span into source body =>
    some (.node { kind := .forOf, span }
      ((.target, into.toTree) :: (.expr, source.toTree) :: items body.toTree.toList))
  | .forIn span into source body =>
    some (.node { kind := .forIn, span }
      ((.target, into.toTree) :: (.expr, source.toTree) :: items body.toTree.toList))
  | .ret span argument => some (.node { kind := .ret, span } (optional .expr (optExprTree argument)))
  | .tryCatch span body handler finalizer =>
    some (other span "try"
      (body.toTree :: ((handlerTree handler).toList ++ (optBlockTree finalizer).toList)))
  | .throw span argument => some (other span "throw" [argument.toTree])
  | .switch span discriminant clauses =>
    some (other span "switch" (discriminant.toTree :: clauseTrees clauses))
  | .labelled _ body => body.toTree
  | .withObject span object body =>
    some (skipped span "with statement" (object.toTree :: body.toTree.toList))
  | .classDeclaration span => some (skipped span "class declaration" [])
  | .empty _ => none

/-- The trees that a list of statements leaves. -/
def stmtTrees : List Stmt → List Tree
  | [] => []
  | s :: ss => s.toTree.toList ++ stmtTrees ss

/-- The tree of a statement that may be left out. -/
def optStmtTree : Option Stmt → Option Tree
  | none => none
  | some s => s.toTree

/-- The tree of a block. -/
def Block.toTree : Block → Tree
  | .mk span body => .node { kind := .block, span } (items (stmtTrees body))

/-- The tree of a block that may be left out. -/
def optBlockTree : Option Block → Option Tree
  | none => none
  | some b => some b.toTree

/-- The tree of the head of a `for` loop. -/
def loopHeadTree : Option LoopHead → Option Tree
  | none => none
  | some (.expression expr) => some expr.toTree
  | some (.var span bindings) => some (declaration span "var" (bindingTrees "var" bindings))
  | some (.lexical span constant bindings) =>
    some (declaration span (lexicalKeyword constant) (bindingTrees (lexicalKeyword constant) bindings))

/-- The tree of what a loop over a collection assigns to. -/
def LoopTarget.toTree : LoopTarget → Tree
  | .var binding => binding.toTree "var"
  | .lexical constant target => declarator (lexicalKeyword constant) target none none
  | .expression expr => expr.toTree

/-- The trees of the clauses of a `switch`. -/
def clauseTrees : List Clause → List Tree
  | [] => []
  | .mk span test body :: cs =>
    .node { kind := .other, span := span.getD ⟨0, 0⟩, value := "case", endless := span.isNone }
      (items ((optExprTree test).toList ++ stmtTrees body)) :: clauseTrees cs

/-- The tree of a handler, a block of its own whose parameter comes first. -/
def handlerTree : Option Handler → Option Tree
  | none => none
  | some (.mk span parameter body) =>
    some (.node { kind := .block, span, value := "catch" }
      (items (parameter.toList.map (declarator "catch" · none none) ++ stmtTrees body)))

end

/-- The tree of a whole script. Its root reaches from the first statement to the end of the last,
whether or not these leave a node. -/
def toTree (script : Script) : Tree :=
  let span : Span := match script.body.head?, script.body.getLast? with
    | some first, some last => ⟨first.span.start, last.span.stop⟩
    | _, _ => ⟨0, 0⟩
  .node { kind := .program, span } (items (stmtTrees script.body))

end Script

end LayoutInference
