import LayoutInference.Layout
import LayoutInference.Program.Node

/-!
# Evidence

What is known about variables and functions while layouts are inferred. Evidence comes as candidate
layouts, as properties added to a record, and as promises: decisions put off until some node has a
layout. The operations here change one variable or function; nothing here looks at a program.
-/

namespace LayoutInference

/-- What a promise does with the layout of its node. -/
inductive Use where
  /-- The owner has that layout. -/
  | same
  /-- The owner has the layout of its elements. -/
  | elementOf
  /-- The owner is a growing array of it. -/
  | arrayOf
  /-- The owner is a dictionary of it. -/
  | dictOf
  /-- It tells the layout of array elements that are not known yet. -/
  | indexed
deriving DecidableEq, Repr

/-- A decision put off until `node` has a layout. It is about the property of that name, or about the
owner itself if the name is empty. -/
structure Promise where
  node : NodeId
  use : Use := .same
  property : String := ""
  resolved : Bool := false
deriving DecidableEq, Repr

/-- A property written to a variable: its layout, `missing` while it waits for a promise, or the mark
that it holds its owner. -/
structure Added where
  name : String
  layout : Layout := .missing
  self : Bool := false
deriving DecidableEq, Repr

/-- The evidence about one declared variable or parameter. -/
structure Variable where
  decl : NodeId
  name : String
  /-- The function whose parameter this is. -/
  func : Option NodeId := none
  parameter : Bool := false
  ordinal : Nat := 0
  candidates : List Layout := []
  added : List Added := []
  promises : List Promise := []
  /-- An object literal was assigned directly. -/
  objectLiteral : Bool := false
  /-- Elements are pushed or popped. -/
  growing : Bool := false
  /-- Elements are written under computed keys. -/
  dictionary : Bool := false
  winner : Layout := .missing
  alloc : Bool := false
  conflicts : List Layout := []
deriving DecidableEq, Repr

/-- Whether `new` says strictly more than `old`: `old` is not known, or is an array of unknown elements
that `new` gives a layout. -/
def refines (old new : Layout) : Bool :=
  if new.isFallback then false
  else if old = .missing || old = .pointer then true
  else old.isArray && new.isArray && old.elem.isFallback && !new.elem.isFallback

/-- Whether a list has a layout with the same key. -/
def hasSame (layouts : List Layout) (l : Layout) : Bool := layouts.any (·.same l)

/-- Append a layout unless one with the same key is there. -/
def appendDistinct (layouts : List Layout) (l : Layout) : List Layout :=
  if hasSame layouts l then layouts else layouts ++ [l]

/-- The layouts of a list, each key once, at its first place. -/
def distinct (layouts : List Layout) : List Layout := layouts.foldl appendDistinct []

namespace Added

/-- A property after a write of a known layout. Writes that do not fit together make it universal. -/
def write (a : Added) (l : Layout) : Added :=
  if a.self then
    if l.isRecord then a else { a with self := false, layout := .universal }
  else if refines a.layout l then { a with layout := l }
  else if refines l a.layout then a
  else if a.layout.same l then a
  else { a with layout := .universal }

/-- A property after a write of its owner. -/
def writeSelf (a : Added) : Added :=
  if a.layout = .missing || a.self then { a with self := true }
  else { a with layout := .universal }

/-- Change the property of a name, or append it as `fresh`. -/
def update (name : String) (change : Added → Added) (fresh : Added) : List Added → List Added
  | [] => [fresh]
  | a :: as => if a.name = name then change a :: as else a :: update name change fresh as

end Added

namespace Variable

/-- Whether a layout would be a new candidate. -/
def accepts (v : Variable) (l : Layout) : Bool := l ≠ .missing && !hasSame v.candidates l

/-- Add a candidate unless one with the same key is there. -/
def addCandidate (v : Variable) (l : Layout) : Variable :=
  if v.accepts l then { v with candidates := v.candidates ++ [l] } else v

/-- Put off a decision. -/
def addPromise (v : Variable) (p : Promise) : Variable := { v with promises := v.promises ++ [p] }

/-- Fix the place of a property whose layout is not known yet. -/
def reserve (v : Variable) (name : String) : Variable :=
  { v with added := Added.update name id { name } v.added }

/-- Record a property that holds its owner. -/
def writeSelf (v : Variable) (name : String) : Variable :=
  { v with added := Added.update name Added.writeSelf { name, self := true } v.added }

/-- Record a property with a known layout. -/
def write (v : Variable) (name : String) (l : Layout) : Variable :=
  { v with added := Added.update name (Added.write · l) { name, layout := l } v.added }

/-- Make the variable a dictionary: record candidates and all properties recorded so far are
dropped, and promises about properties need not be kept. -/
def makeDictionary (v : Variable) : Variable :=
  if v.dictionary then v
  else { v with
    dictionary := true
    added := []
    promises := v.promises.map fun p => if p.property = "" then p else { p with resolved := true }
    candidates := v.candidates.filter (!·.isRecord) }

end Variable

/-- What calls say about one parameter. -/
structure Slot where
  layout : Layout := .missing
  promises : List Promise := []
deriving DecidableEq, Repr

/-- The evidence about one function. -/
structure Routine where
  node : NodeId
  name : String
  params : List NodeId
  args : List Slot
  ret : Layout := .missing
  /-- Returned values whose layout is not known yet. -/
  retPromises : List Promise := []
  /-- Properties of a returned object literal whose layout is not known yet. -/
  retProps : List Promise := []
  calls : Nat := 0
  hasReturn : Bool := false
  /-- Some return statement carries a value. -/
  valued : Bool := false
deriving DecidableEq, Repr

namespace Routine

/-- Whether properties of the returned record are still waiting. -/
def shaping (r : Routine) : Bool := r.retProps.any (!·.resolved)

/-- The layout of what a function returns: `void` if it never returns a value, `missing` while it is
not known or still being shaped. -/
def returned (r : Routine) : Layout :=
  if r.ret ≠ .missing then (if r.shaping then .missing else r.ret)
  else if r.valued then .missing
  else .void

end Routine

end LayoutInference
