import LayoutInference.Yaml.Scalar

/-!
# YAML nodes

The tree of a document. A node keeps its line, which messages name, and its tag. An alias is a node of
its own that names another one by number, so that a node may be part of itself.
-/

namespace LayoutInference.Yaml

/-- A node of a document with its line. -/
inductive Node where
  | scalar (line : Nat) (tag : String) (text : String)
  | sequence (line : Nat) (tag : String) (items : List Node)
  | mapping (line : Nat) (tag : String) (entries : List (Node × Node))
  /-- Another node by its name and number. No other alias has the same `place`. -/
  | alias (line : Nat) (place : Nat) (name : String) (number : Nat)

/-- The kinds of nodes. -/
inductive Node.Kind where
  | scalar
  | sequence
  | mapping
  | alias
deriving DecidableEq, Repr

/-- The beginning of the tags that the format itself defines. -/
def ownTagStart : String := "tag:yaml.org,2002:"

/-- A tag in its short form. -/
def shortTag (tag : String) : String :=
  if tag.startsWith ownTagStart then "!!" ++ (tag.drop ownTagStart.length).toString else tag

/-- The tag of a key under which other fields are merged. -/
def mergeTag : String := "!!merge"

/-- The tag of a scalar that has none: quoted scalars are text. -/
def untaggedScalar (isPlain : Bool) (text : String) : String :=
  if !isPlain then "!!str"
  else if text = "<<" then mergeTag
  else (meaning text).tag

namespace Node

/-- The kind of a node. -/
def kind : Node → Kind
  | .scalar _ _ _ => .scalar
  | .sequence _ _ _ => .sequence
  | .mapping _ _ _ => .mapping
  | .alias _ _ _ _ => .alias

/-- The line of a node. -/
def line : Node → Nat
  | .scalar line _ _ => line
  | .sequence line _ _ => line
  | .mapping line _ _ => line
  | .alias line _ _ _ => line

/-- The tag of a node; an alias has none. -/
def tag : Node → String
  | .scalar _ tag _ => tag
  | .sequence _ tag _ => tag
  | .mapping _ tag _ => tag
  | .alias _ _ _ _ => ""

/-- The text of a scalar and the name of an alias. -/
def text : Node → String
  | .scalar _ _ text => text
  | .alias _ _ name _ => name
  | _ => ""

/-- The node of a value that is left out. -/
def nothing (line : Nat) : Node := .scalar line Meaning.null.tag ""

/-- Whether two keys are written alike. -/
def writtenLike (a b : Node) : Bool := a.kind = b.kind && a.text = b.text

/-- Whether a key merges the fields of its value. -/
def isMerge : Node → Bool
  | .scalar _ tag text => tag = mergeTag && text = "<<"
  | _ => false

end Node

end LayoutInference.Yaml
