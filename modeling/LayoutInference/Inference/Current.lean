import LayoutInference.Evidence
import LayoutInference.Inference.Derivation

/-!
# Current layouts

The layout that an expression has by the evidence settled so far: a variable has its winner, a call
what the function returns, and everything else follows from its parts or from its apparent type.
Asking never changes evidence; it may register a record that only an apparent type mentions.
-/

namespace LayoutInference

/-- A program with the evidence about its variables and functions. -/
structure View extends Subject where
  vars : List Variable
  routines : List Routine

namespace View

/-- The variable that a node declares or refers to. -/
def variableOf? (v : View) (id : NodeId) : Option Variable := do
  let decl ← v.program.declaration id
  v.vars.find? (·.decl = decl)

/-- The evidence about a function. -/
def routine? (v : View) (fn : NodeId) : Option Routine := v.routines.find? (·.node = fn)

end View

/-- What the methods of a string return, as far as resolved evidence decides it. -/
def stringMethodLayout? : String → Option Layout
  | "indexOf" | "lastIndexOf" => some .integer
  | "charAt" | "substring" | "substr" | "slice" | "toUpperCase" | "toLowerCase" | "trim"
  | "concat" => some .string
  | _ => none

/-- What the methods of an array return, as far as resolved evidence decides it. -/
def arrayMethodLayout? (array : Layout) : String → Option Layout
  | "pop" | "shift" => some array.elem
  | "push" | "unshift" | "indexOf" | "lastIndexOf" => some .integer
  | _ => none

namespace View

/-- The layout of what a method of a receiver returns, if the receiver decides it. -/
def methodLayout? (receiver : Layout) (method : String) : Option Layout :=
  if receiver.isArray then arrayMethodLayout? receiver method
  else if receiver = .string then stringMethodLayout? method
  else none

/-- The layout of an element of a receiver under a key. None means that the receiver does not decide
it, `missing` that there is no such element. -/
def elementLayout? (registry : Registry) (receiver : Layout) (key : Option Node) : Option Layout :=
  match receiver with
  | .record id =>
    match key with
    | some key =>
      if key.kind = .string then
        some ((((registry.record? id).bind (·.field? key.value))).getD .missing)
      else some .missing
    | none => some .missing
  | .scalar kind => some (if kind = .string then .string else .missing)
  | receiver => receiver.elem?

/-- The layout of a property of a receiver, in the same sense. -/
def propertyLayout? (registry : Registry) (receiver : Layout) (name : String) : Option Layout :=
  if name = "length" && (receiver = .string || receiver.isArray) then some .integer
  else match receiver with
    | .record id => some (((registry.record? id).bind (·.field? name)).getD .missing)
    | _ => none

/-- The layout of a sum of two operands; `missing` if they do not decide it. -/
def sumLayout (left right : Layout) : Layout :=
  if left = .string || right = .string then .string
  else if left = .integer && right = .integer then .integer
  else .missing

/-- The layout that a node has now; `missing` if none is known. Parts have higher numbers than the
node they belong to, which bounds the walk. -/
def current (v : View) (id : NodeId) : StateM Store Layout :=
  match _hn : v.program.node? id with
  | none => pure .missing
  | some n =>
    let part (child : Option NodeId) : StateM Store Layout :=
      match child with
      | none => pure .missing
      | some c => if _h : id < c then v.current c else pure .missing
    match n.kind with
    | .string | .template => pure .string
    | .number => pure .integer
    | .boolean => pure .boolean
    | .objectLiteral | .arrayLiteral => do
      match (← get).literals.lookup id with
      | some known => pure known
      | none => return (← v.determine "" id).getD .missing
    | .identifier | .variable | .parameter =>
      match v.variableOf? id with
      | some owner => pure owner.winner
      | none =>
        if n.kind = .identifier ∧ n.decl ≠ none then pure .missing else v.quietLayout id
    | .function =>
      match v.routine? id with
      | some routine => pure routine.returned
      | none => v.quietLayout id
    | .elementAccess => do
      let receiver ← part n.target
      match elementLayout? (← get).registry receiver (v.program.at? n.expr) with
      | some l => pure l
      | none => v.quietLayout id
    | .propertyAccess => do
      let receiver ← part n.target
      match propertyLayout? (← get).registry receiver n.name with
      | some l => pure l
      | none => v.quietLayout id
    | .call =>
      match v.program.at? n.target with
      | none => pure .missing
      | some callee =>
        if callee.kind = .propertyAccess then do
          let receiver ← part callee.target
          match methodLayout? receiver callee.name with
          | some l => pure l
          | none => v.quietLayout id
        else
          match (v.program.functionOf callee.id).bind v.routine? with
          | some routine => pure routine.returned
          | none => v.quietLayout id
    | .assign => if n.value = "=" then part n.expr else v.quietLayout id
    | .binary =>
      match operatorClass n.value with
      | .arithmetic => pure .integer
      | .comparison => pure .boolean
      | .plus => do
        let left ← part n.target
        let right ← part n.expr
        let l := sumLayout left right
        if l = .missing then v.quietLayout id else pure l
      | .choice | .unknown => v.quietLayout id
    | _ => v.quietLayout id
termination_by v.program.nodes.size + 1 - id
decreasing_by
  have hsize : id - 1 < v.program.nodes.size := by
    unfold Program.node? at _hn
    split at _hn
    · exact absurd _hn (by simp)
    · exact (Array.getElem?_eq_some_iff.mp _hn).1
  simp only [NodeId] at *
  omega

/-- The layout that a node has now, `missing` also for one that says nothing. -/
def layoutOf (v : View) (id : NodeId) : StateM Store Layout := do
  let l ← v.current id
  return if l.isFallback then .missing else l

end View

end LayoutInference
