import LayoutInference.Apparent
import LayoutInference.Program

/-!
# Evaluating apparent types

`Node.apparent` says how the apparent type of a node follows from those of other nodes; it is written
for any monad, so that the same rule serves every way of looking the others up.

References may be circular. `Program.evaluate` walks them with the list of nodes that are not being
evaluated yet: meeting a node that already is cuts the walk there with `any`. Answers are kept in a
cache, except those that depend on such a cut, which hold only for the walk that made them.
-/

namespace LayoutInference

section Rules

variable {m : Type → Type} [Monad m]

/-- The type on which all of `xs` agree, asked one after the other up to the first that differs. -/
def agreeWith {α : Type} (look : α → m Apparent) (first : Apparent) : List α → m Apparent
  | [] => pure first
  | x :: xs => do
    if (← look x).agrees first then agreeWith look first xs else pure .any

/-- The type on which all of a list agree, `default` for the empty list. -/
def agreement {α : Type} (look : α → m Apparent) (default : Apparent) : List α → m Apparent
  | [] => pure default
  | x :: xs => do agreeWith look (← look x) xs

/-- The type of a node that may be left out. -/
def lookOpt (look : NodeId → m Apparent) : Option NodeId → m Apparent
  | none => pure .any
  | some id => look id

/-- The type of a binary operation. -/
def operation (look : NodeId → m Apparent) (operator : String) (left right : Option NodeId) :
    m Apparent :=
  match operatorClass operator with
  | .plus => do
    let l ← lookOpt look left
    let r ← lookOpt look right
    if l.isString || r.isString then pure .string
    else if l.isNumber && r.isNumber then pure .number
    else pure .any
  | .arithmetic => pure .number
  | .comparison => pure .boolean
  | .choice => agreement look .any (left.toList ++ right.toList)
  | .unknown => pure .any

/-- The type of a variable: that of its initial value, or of what the loop it belongs to walks over. -/
def declaredType (p : Program) (look : NodeId → m Apparent) (n : Node) : m Apparent :=
  match p.at? n.parent with
  | some parent =>
    if parent.target = some n.id ∧ parent.kind = .forIn then pure .string
    else if parent.target = some n.id ∧ parent.kind = .forOf then
      return (← lookOpt look parent.expr).element
    else lookOpt look n.expr
  | none => lookOpt look n.expr

/-- The type that the returns of a function agree on, `void` without returns. -/
def returnedType (p : Program) (look : NodeId → m Apparent) (fn : NodeId) : m Apparent :=
  agreement
    (fun ret => match (p.node? ret).bind (·.expr) with
      | some expr => look expr
      | none => pure .void)
    .void (p.returns fn)

/-- The type of a call. -/
def callType (p : Program) (look : NodeId → m Apparent) (n : Node) : m Apparent :=
  match p.at? n.target with
  | none => pure .any
  | some callee =>
    if callee.kind = .propertyAccess then
      match p.at? callee.target with
      | none => pure .any
      | some object =>
        if object.kind = .identifier ∧ object.name = "Math" ∧ object.decl = none then pure .number
        else do
          match ← look object.id with
          | .string => pure (Apparent.stringMethod callee.name)
          | .array elem => pure (Apparent.arrayMethod elem callee.name)
          | _ => pure .any
    else match p.functionOf callee.id with
      | some fn => returnedType p look fn
      | none =>
        if callee.kind = .identifier ∧ callee.decl = none then
          pure (Apparent.globalFunction callee.name)
        else pure .any

/-- The members of an object literal. -/
def memberTypes (p : Program) (look : NodeId → m Apparent) : List NodeId → m (List (Member Apparent))
  | [] => pure []
  | id :: ids =>
    match p.node? id with
    | none => memberTypes p look ids
    | some property =>
      if property.isMember then do
        let type ← lookOpt look property.expr
        return ⟨property.name, type, property.expr⟩ :: (← memberTypes p look ids)
      else memberTypes p look ids

/-- The apparent type of a node, given a way to look up those of others. -/
def Node.apparent (p : Program) (look : NodeId → m Apparent) (n : Node) : m Apparent :=
  match n.kind with
  | .number => pure .number
  | .string | .template => pure .string
  | .boolean => pure .boolean
  | .null => pure .null
  | .function => pure .function
  | .identifier =>
    match n.decl with
    | some decl => look decl
    | none => pure (if n.name = "undefined" then .undefined else .any)
  | .variable => declaredType p look n
  | .parameter => lookOpt look n.expr
  | .arrayLiteral => do return .array (← lookOpt look n.items.head?)
  | .objectLiteral => do return .object (← memberTypes p look n.items)
  | .propertyAccess => do
    match ← lookOpt look n.target with
    | .string | .array _ => pure (if n.name = "length" then .number else .any)
    | object => pure ((object.member? n.name).getD .any)
  | .elementAccess => do
    match ← lookOpt look n.target with
    | .object members =>
      match p.at? n.expr with
      | some key =>
        if key.kind = .string then pure (((Apparent.object members).member? key.value).getD .any)
        else pure .any
      | none => pure .any
    | collection => pure collection.element
  | .call => callType p look n
  | .assign =>
    if n.value = "=" then lookOpt look n.expr
    else operation look (compoundOperator n.value) n.target n.expr
  | .binary => operation look n.value n.target n.expr
  | .unary =>
    match n.value with
    | "!" | "delete" => pure .boolean
    | "typeof" => pure .string
    | "void" => pure .undefined
    | _ => pure .number
  | .conditional => agreement look .any n.items
  | _ => pure .any

end Rules

/-- The answers kept so far, and whether the walk that is going on was cut at a circular
reference. -/
structure Apparent.Cache where
  answers : List (NodeId × Apparent) := []
  cut : Bool := false

namespace Program

/-- All node numbers in order. -/
def ids (p : Program) : List NodeId := (List.range p.nodes.size).map (· + 1)

/-- The apparent type of a node while only the nodes of `fresh` are not being evaluated yet. -/
def evaluate (p : Program) (fresh : List NodeId) (id : NodeId) :
    StateM Apparent.Cache Apparent := do
  let before ← get
  match before.answers.lookup id with
  | some known => return known
  | none =>
    match p.node? id with
    | none => return .any
    | some n =>
      if _h : id ∈ fresh then
        set { before with cut := false }
        let type ← n.apparent p fun other => p.evaluate (fresh.erase id) other
        modify fun after =>
          { answers := if after.cut then after.answers else (id, type) :: after.answers
            cut := after.cut || before.cut }
        return type
      else
        set { before with cut := true }
        return .any
termination_by fresh.length
decreasing_by
  rw [List.length_erase_of_mem _h]
  have := List.length_pos_of_mem _h
  omega

/-- Ask for the apparent type of a node, using and extending the answers kept. -/
def ask (p : Program) (id : NodeId) : StateM Apparent.Cache Apparent := p.evaluate p.ids id

/-- The answers to a series of questions with one cache. -/
def askAll (p : Program) (ids : List NodeId) : List Apparent :=
  (ids.mapM p.ask {}).1

/-- The apparent types of all nodes, that of node `i` at index `i - 1`. -/
def apparentTable (p : Program) : Array Apparent := (p.askAll p.ids).toArray

end Program

end LayoutInference
