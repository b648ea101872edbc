import LayoutInference.Program.Node

/-!
# Apparent types

The widened static type that an expression shows on its face, before any evidence about variables is
weighed. Two apparent types agree when they are written alike.
-/

namespace LayoutInference

/-- A member of an object type: its name, its type, and the node its value was read from. -/
structure Member (α : Type) where
  name : String
  type : α
  node : Option NodeId

/-- Apparent types. An array type always has the type of its elements: it is made from an array literal,
from text that is split or from another array, with `any` where nothing is known about them. -/
inductive Apparent where
  | any
  | string
  | number
  | boolean
  | void
  | null
  | undefined
  | function
  | object (members : List (Member Apparent))
  | array (elem : Apparent)

namespace Apparent

mutual

/-- The written form of an apparent type. -/
def text : Apparent → String
  | .any => "any"
  | .string => "string"
  | .number => "number"
  | .boolean => "boolean"
  | .void => "void"
  | .null => "null"
  | .undefined => "undefined"
  | .function => "function"
  | .object members => "\x7b" ++ "; ".intercalate (memberTexts members) ++ "\x7d"
  | .array elem => elem.text ++ "[]"

/-- The written forms of the members of an object type. -/
def memberTexts : List (Member Apparent) → List String
  | [] => []
  | ⟨name, type, _⟩ :: members => (name ++ ": " ++ type.text) :: memberTexts members

end

/-- Whether two apparent types are written alike. -/
def agrees (a b : Apparent) : Bool := a.text = b.text

/-- Whether the type is `string`. -/
def isString : Apparent → Bool
  | .string => true
  | _ => false

/-- Whether the type is `number`. -/
def isNumber : Apparent → Bool
  | .number => true
  | _ => false

/-- The type of the first member with a name. -/
def member? (name : String) : Apparent → Option Apparent
  | .object members => (members.find? (·.name = name)).map (·.type)
  | _ => none

/-- The type of one element of a value that is walked or indexed. -/
def element : Apparent → Apparent
  | .array elem => elem
  | .string => .string
  | _ => .any

/-- What a method of a string returns. -/
def stringMethod : String → Apparent
  | "charAt" | "substring" | "substr" | "slice" | "toUpperCase" | "toLowerCase" | "trim"
  | "concat" | "replace" | "repeat" | "padStart" | "padEnd" => .string
  | "indexOf" | "lastIndexOf" | "charCodeAt" | "search" => .number
  | "startsWith" | "endsWith" | "includes" => .boolean
  | "split" => .array .string
  | _ => .any

/-- What a method of an array with elements `elem` returns. -/
def arrayMethod (elem : Apparent) : String → Apparent
  | "push" | "unshift" | "indexOf" | "lastIndexOf" => .number
  | "pop" | "shift" => elem
  | "join" => .string
  | "slice" | "concat" | "reverse" | "sort" | "filter" => .array elem
  | "includes" | "some" | "every" => .boolean
  | _ => .any

/-- What a global function returns. -/
def globalFunction : String → Apparent
  | "parseInt" | "parseFloat" | "Number" => .number
  | "String" => .string
  | "Boolean" => .boolean
  | _ => .any

end Apparent

/-- The classes of binary operator, by what they compute. -/
inductive OperatorClass where
  | plus
  | arithmetic
  | comparison
  | choice
  | unknown
deriving DecidableEq

/-- The class of a binary operator. -/
def operatorClass : String → OperatorClass
  | "+" => .plus
  | "-" | "*" | "/" | "%" | "**" | "<<" | ">>" | ">>>" | "&" | "|" | "^" => .arithmetic
  | "<" | ">" | "<=" | ">=" | "==" | "!=" | "===" | "!==" | "in" | "instanceof" => .comparison
  | "&&" | "||" | "??" => .choice
  | _ => .unknown

/-- The binary operator of a compound assignment. -/
def compoundOperator (operator : String) : String :=
  match operator.toList.reverse with
  | '=' :: rest => String.ofList rest.reverse
  | _ => operator

end LayoutInference
