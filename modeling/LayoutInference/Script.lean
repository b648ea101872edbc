/-!
# Parsed scripts

The syntax of a JavaScript program as a parser hands it over: expressions, statements and the parts
between them, each with the stretch of source text it was read from. Nothing here is checked or
interpreted; `LayoutInference.Tree` turns a script into the uniform tree that the analysis works on.
-/

namespace LayoutInference

/-- A stretch of source text: 1-based byte offsets, `stop` one past the last byte. -/
structure Span where
  start : Nat
  stop : Nat
deriving DecidableEq, Repr

namespace Script

/-- What a declaration binds: a name, or a pattern, whose inside is not looked at. -/
inductive Target where
  | name (span : Span) (name : String)
  | pattern (span : Span)

/-- How a keyed property of an object literal was written. -/
inductive PropertyForm where
  | value
  | getter
  | setter
  | method

mutual

/-- Expressions. `hole` is a missing element of an array literal, `chained` an optional chain or a
link of one, and `unknown` an expression form without a treatment of its own. -/
inductive Expr where
  | identifier (span : Span) (name : String)
  | number (span : Span) (literal : String)
  | string (span : Span) (value : String)
  | boolean (span : Span) (value : Bool)
  | null (span : Span)
  | template (span : Span) (tag : Option Expr) (substitutions : List Expr)
  | regexp (span : Span)
  | hole
  | array (span : Span) (elements : List Expr)
  | object (span : Span) (properties : List Property)
  | dot (span : Span) (object : Expr) (name : String)
  | bracket (span : Span) (object : Expr) (key : Expr)
  | call (span : Span) (callee : Expr) (arguments : List Expr)
  | new (span : Span) (callee : Expr) (arguments : List Expr)
  | assign (span : Span) (operator : String) (left : Expr) (right : Expr)
  | binary (span : Span) (operator : String) (left : Expr) (right : Expr)
  | unary (span : Span) (operator : String) (operand : Expr)
  | conditional (span : Span) (test : Expr) (consequent : Expr) (alternate : Expr)
  | function (span : Span) (name : String) (parameters : List Binding) (rest : Option Target)
      (body : Block)
  | arrow (span : Span) (parameters : List Binding) (rest : Option Target) (body : Block)
  | arrowExpr (span : Span) (parameters : List Binding) (rest : Option Target) (bodySpan : Span)
      (body : Expr)
  | chained (span : Span) (inner : Expr)
  | sequence (span : Span) (parts : List Expr)
  | this (span : Span)
  | await (span : Span) (argument : Expr)
  | yield (span : Span) (argument : Option Expr)
  | spread (span : Span) (argument : Expr)
  | classLiteral (span : Span)
  | pattern (span : Span)
  | unknown (span : Span) (form : String)

/-- Properties of an object literal. -/
inductive Property where
  | keyed (span : Span) (form : PropertyForm) (computed : Bool) (key : Expr) (value : Expr)
  | shorthand (span : Span) (nameSpan : Span) (name : String)
  | spread (span : Span)

/-- One declarator or parameter: what it binds and its initial value, if any. -/
inductive Binding where
  | mk (target : Target) (initial : Option Expr)

/-- Statements. `empty` covers every statement that declares and computes nothing. -/
inductive Stmt where
  | block (body : Block)
  | expression (span : Span) (expr : Expr)
  | var (span : Span) (bindings : List Binding)
  | lexical (span : Span) (constant : Bool) (bindings : List Binding)
  | function (span : Span) (name : String) (parameters : List Binding) (rest : Option Target)
      (body : Block)
  | ifElse (span : Span) (test : Expr) (consequent : Stmt) (alternate : Option Stmt)
  | forLoop (span : Span) (head : Option LoopHead) (test : Option Expr) (update : Option Expr)
      (body : Stmt)
  | whileLoop (span : Span) (test : Expr) (body : Stmt)
  | doWhile (span : Span) (body : Stmt) (test : Expr)
  | forOf (span : Span) (into : LoopTarget) (source : Expr) (body : Stmt)
  | forIn (span : Span) (into : LoopTarget) (source : Expr) (body : Stmt)
  | ret (span : Span) (argument : Option Expr)
  | tryCatch (span : Span) (body : Block) (handler : Option Handler) (finalizer : Option Block)
  | throw (span : Span) (argument : Expr)
  | switch (span : Span) (discriminant : Expr) (clauses : List Clause)
  | labelled (span : Span) (body : Stmt)
  | withObject (span : Span) (object : Expr) (body : Stmt)
  | classDeclaration (span : Span)
  | empty (span : Span)

/-- A braced list of statements. -/
inductive Block where
  | mk (span : Span) (body : List Stmt)

/-- What stands before the first semicolon of a `for` loop. -/
inductive LoopHead where
  | expression (expr : Expr)
  | var (span : Span) (bindings : List Binding)
  | lexical (span : Span) (constant : Bool) (bindings : List Binding)

/-- What a `for … of` or `for … in` loop assigns to. -/
inductive LoopTarget where
  | var (binding : Binding)
  | lexical (constant : Bool) (target : Target)
  | expression (expr : Expr)

/-- One clause of a `switch`. A clause without statements has no end, hence no span. -/
inductive Clause where
  | mk (span : Option Span) (test : Option Expr) (body : List Stmt)

/-- The handler of a `try` statement. -/
inductive Handler where
  | mk (span : Span) (parameter : Option Target) (body : List Stmt)

end

/-- The stretch of source of a target. -/
def Target.span : Target → Span
  | .name span _ => span
  | .pattern span => span

/-- The stretch of source of an expression; a hole has none. -/
def Expr.span : Expr → Option Span
  | .hole => none
  | .identifier s _ | .number s _ | .string s _ | .boolean s _ | .null s | .template s _ _
  | .regexp s | .array s _ | .object s _ | .dot s _ _ | .bracket s _ _ | .call s _ _ | .new s _ _
  | .assign s _ _ _ | .binary s _ _ _ | .unary s _ _ | .conditional s _ _ _ | .function s _ _ _ _
  | .arrow s _ _ _ | .arrowExpr s _ _ _ _ | .chained s _ | .sequence s _ | .this s | .await s _
  | .yield s _ | .spread s _ | .classLiteral s | .pattern s | .unknown s _ => some s

/-- The stretch of source of a statement. -/
def Stmt.span : Stmt → Span
  | .block (.mk s _) | .expression s _ | .var s _ | .lexical s _ _ | .function s _ _ _ _
  | .ifElse s _ _ _ | .forLoop s _ _ _ _ | .whileLoop s _ _ | .doWhile s _ _ | .forOf s _ _ _
  | .forIn s _ _ _ | .ret s _ | .tryCatch s _ _ _ | .throw s _ | .switch s _ _ | .labelled s _
  | .withObject s _ _ | .classDeclaration s | .empty s => s

end Script

/-- A whole script: its top-level statements. -/
structure Script where
  body : List Script.Stmt

end LayoutInference
