/-!
# Layouts

The fixed static layouts that values are given: scalars, arrays of fixed and of growing length,
dictionaries keyed by strings, and references to records. Records are named by their number in a
`Registry`; a layout is plain data, and a container repeats the layout of its elements.

A layout is written as a C declarator. In the declarator of a fixed array the variable's name stands
inside the text, so `Declarator` keeps what stands before it and after it apart. `Layout.key` is the
written form with records named by number: it identifies a layout whatever its records are called.
-/

namespace LayoutInference

/-- Scalar layouts. `pointer` stands for "not known yet" and `universal` for a tagged run-time value,
the layout of what has no static one. A `coded` scalar is made from a number; scalars made at
different times differ in `serial` alone. -/
inductive Scalar where
  | string
  | integer
  | boolean
  | void
  | pointer
  | universal
  | coded (code : Int) (serial : Nat)
deriving DecidableEq, Repr

namespace Scalar

/-- The written form of a scalar made from a number. -/
def codeText (code : Int) : String :=
  if code = 0 then "const char *"
  else if code = 1 then "int16_t"
  else if code = 2 then "uint8_t"
  else if code = 3 then "void"
  else if code = 4 then "void *"
  else if code = 5 then "struct js_var"
  else "primitive(" ++ toString code ++ ")"

/-- The written form of a scalar. -/
def text : Scalar → String
  | .string => "const char *"
  | .integer => "int16_t"
  | .boolean => "uint8_t"
  | .void => "void"
  | .pointer => "void *"
  | .universal => "struct js_var"
  | .coded code _ => codeText code

/-- Whether the scalar carries no static information. -/
def isFallback : Scalar → Bool
  | .pointer | .universal => true
  | .coded code _ => code = 4 || code = 5
  | _ => false

end Scalar

/-- Records are numbered from 1; number 0 stands for a record that is being made. -/
abbrev RecordId := Nat

/-- Layouts. `missing` stands where none is known; as an element or a field it reads like the opaque
pointer, but on its own it has no written form. -/
inductive Layout where
  | missing
  | scalar (kind : Scalar)
  | fixed (elem : Layout) (capacity : Int)
  | dynamic (elem : Layout)
  | dict (elem : Layout)
  | record (id : RecordId)
deriving DecidableEq, Repr

/-- A declaration with room for a name: what stands before the name and, if anything stands after
it, that too. -/
structure Declarator where
  before : String
  after : Option String := none
deriving DecidableEq, Repr

namespace Declarator

/-- The mark that holds the place of the name. -/
def hole : String := "\x7bvar\x7d"

/-- The declarator as text, the place of the name marked. -/
def text (d : Declarator) : String :=
  match d.after with
  | none => d.before
  | some after => d.before ++ hole ++ after

/-- The declaration of a name. -/
def declare (d : Declarator) (name : String) : String :=
  match d.after with
  | some after => d.before ++ name ++ after
  | none => if d.before.endsWith "*" then d.before ++ name else d.before ++ " " ++ name

/-- One more array dimension, outside those that are there. -/
def dimension (d : Declarator) (capacity : Int) : Declarator :=
  match d.after with
  | some after => ⟨d.before, some ("[" ++ toString capacity ++ "]" ++ after)⟩
  | none => ⟨"static " ++ d.before ++ " ", some ("[" ++ toString capacity ++ "]")⟩

/-- The declarator inside the parentheses of a container macro. -/
def wrap (d : Declarator) (macroName : String) : Declarator :=
  match d.after with
  | some after => ⟨macroName ++ "(" ++ d.before, some (after ++ ")")⟩
  | none => ⟨macroName ++ "(" ++ d.before ++ ")", none⟩

end Declarator

namespace Layout

/-- The opaque pointer, the layout of what is not known yet. -/
abbrev pointer : Layout := .scalar .pointer

/-- The layout of a tagged run-time value. -/
abbrev universal : Layout := .scalar .universal

/-- The layout of text. -/
abbrev string : Layout := .scalar .string

/-- The layout of a number. -/
abbrev integer : Layout := .scalar .integer

/-- The layout of a truth value. -/
abbrev boolean : Layout := .scalar .boolean

/-- The layout of no value. -/
abbrev void : Layout := .scalar .void

/-- The declarator of a layout, given the names of records. -/
def declarator (recordName : RecordId → String) : Layout → Declarator
  | .missing => ⟨Scalar.pointer.text, none⟩
  | .scalar kind => ⟨kind.text, none⟩
  | .fixed elem capacity => (elem.declarator recordName).dimension capacity
  | .dynamic elem => (elem.declarator recordName).wrap "ARRAY"
  | .dict elem => (elem.declarator recordName).wrap "DICT"
  | .record id => ⟨"struct " ++ recordName id ++ " *", none⟩

/-- The written form of a layout with records named by number. -/
def key (l : Layout) : String := (l.declarator fun id => "@" ++ toString id).text

/-- Whether the layout carries no static information. -/
def isFallback : Layout → Bool
  | .missing => true
  | .scalar kind => kind.isFallback
  | _ => false

/-- Whether two layouts have the same key; `missing` is the same as itself alone. -/
def same : Layout → Layout → Bool
  | .missing, .missing => true
  | .missing, _ => false
  | _, .missing => false
  | a, b => a.key = b.key

/-- The layout of the elements of an array or dictionary. -/
def elem? : Layout → Option Layout
  | .fixed elem _ | .dynamic elem | .dict elem => some elem
  | _ => none

/-- The layout of the elements, `missing` for what has none. -/
def elem (l : Layout) : Layout := l.elem?.getD .missing

/-- Whether the layout is an array of fixed or growing length. -/
def isArray : Layout → Bool
  | .fixed _ _ | .dynamic _ => true
  | _ => false

/-- Whether values of the layout always live on the heap. Records depend on how their owner was
made and are not counted. -/
def requiresAllocation : Layout → Bool
  | .dynamic _ | .dict _ => true
  | _ => false

/-- Whether the layout refers to a record. -/
def isRecord : Layout → Bool
  | .record _ => true
  | _ => false

/-- The record that a layout is made of, inside any number of containers. -/
def recordId? : Layout → Option RecordId
  | .fixed elem _ | .dynamic elem | .dict elem => elem.recordId?
  | .record id => some id
  | _ => none

end Layout

end LayoutInference
