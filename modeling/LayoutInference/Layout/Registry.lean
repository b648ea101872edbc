import LayoutInference.Layout

/-!
# The registry of records and containers

A registry numbers records and keeps one of each kind. Two property lists are the same record when
their bodies are written alike, each field as its layout's key, its name and a semicolon; the first
registration gives the record its hint. Arrays and dictionaries are kept by key, so that the first
one made under a key is the one handed out.

A record may hold itself: `extend` writes such a field as a reference to record 0 while it looks for
the body, and points it at the record afterwards.
-/

namespace LayoutInference

/-- A named field of a record. -/
structure Field where
  name : String
  layout : Layout
deriving DecidableEq, Repr

/-- A record: its number, the identifier it was first registered for, its final name (empty until
one is given) and its fields. -/
structure Record where
  id : RecordId
  hint : String
  name : String := ""
  fields : List Field
deriving DecidableEq, Repr

namespace Record

/-- The name of a record: the final one, else a provisional one. -/
def displayName (r : Record) : String :=
  if r.name ≠ "" then r.name
  else if r.hint ≠ "" then r.hint ++ "_t"
  else "struct_" ++ toString r.id ++ "_t"

/-- The layout of a field. -/
def field? (r : Record) (name : String) : Option Layout :=
  (r.fields.find? (·.name = name)).map (·.layout)

end Record

/-- The written form of a list of fields, given the names of records. -/
def fieldsText (recordName : RecordId → String) (fields : List Field) : String :=
  String.join (fields.map fun f => (f.layout.declarator recordName).text ++ " " ++ f.name ++ ";")

/-- The body under which a list of fields is registered. -/
def bodyKey (fields : List Field) : String := fieldsText (fun id => "@" ++ toString id) fields

/-- One character of a name as it may stand in a C identifier. -/
def identifierChar (c : Char) : Char :=
  if c = '_' ∨ c.isAlphanum then c else '_'

/-- A name made into a C identifier: other characters become underscores, and a leading digit gets
one before it. -/
def identifier (name : String) : String :=
  match name.toList with
  | [] => ""
  | c :: cs =>
    String.ofList ((if c.isDigit then ['_', c] else [identifierChar c]) ++ cs.map identifierChar)

/-- The constructors of containers. -/
inductive Container where
  | fixed
  | dynamic
  | dict
deriving DecidableEq, Repr

/-- The outermost container of a layout. -/
def Layout.container? : Layout → Option Container
  | .fixed _ _ => some .fixed
  | .dynamic _ => some .dynamic
  | .dict _ => some .dict
  | _ => none

/-- A request for one container that met another under its key. -/
structure Clash where
  found : Option Container
  wanted : Option Container
deriving DecidableEq, Repr

/-- The records and containers made so far. -/
structure Registry where
  records : List Record := []
  bodies : List (String × RecordId) := []
  containers : List (String × Layout) := []
  /-- The first request that met a container of another kind under its key. -/
  clash : Option Clash := none

namespace Registry

/-- The record with a number. -/
def record? (r : Registry) (id : RecordId) : Option Record := r.records.find? (·.id = id)

/-- The fields of a record. -/
def fields (r : Registry) (id : RecordId) : List Field := ((r.record? id).map (·.fields)).getD []

/-- The hint of a record. -/
def hint (r : Registry) (id : RecordId) : String := ((r.record? id).map (·.hint)).getD ""

/-- The name of a record. -/
def recordName (r : Registry) (id : RecordId) : String :=
  match r.record? id with
  | some record => record.displayName
  | none => "struct_" ++ toString id ++ "_t"

/-- The declarator of a layout with the names that records have now. -/
def declarator (r : Registry) (l : Layout) : Declarator := l.declarator r.recordName

/-- The written form of a layout with the names that records have now. -/
def text (r : Registry) (l : Layout) : String := (r.declarator l).text

/-- The written form of the fields of a record. -/
def body (r : Registry) (id : RecordId) : String := fieldsText r.recordName (r.fields id)

/-- The record with the given fields, made if there is none yet. -/
def register (r : Registry) (hint : String) (fields : List Field) : RecordId × Registry :=
  match r.bodies.lookup (bodyKey fields) with
  | some id => (id, r)
  | none =>
    let id := r.records.length + 1
    (id, { r with
      records := r.records ++ [{ id, hint := identifier hint, fields }]
      bodies := (bodyKey fields, id) :: r.bodies })

/-- Give a field its layout where its name stands, or append it. -/
def overlay (fields : List Field) (f : Field) : List Field :=
  match fields with
  | [] => [f]
  | g :: gs => if g.name = f.name then { g with layout := f.layout } :: gs else g :: overlay gs f

/-- Point the fields that refer to record 0 at the record they stand in. -/
def closeSelf (r : Registry) (id : RecordId) : Registry :=
  let close (f : Field) : Field := if f.layout = .record 0 then { f with layout := .record id } else f
  { r with records := r.records.map fun record =>
      if record.id = id then { record with fields := record.fields.map close } else record }

/-- The record with the fields of `id` overlaid by those added. Fields named in `self` hold the
extended record itself. -/
def extend (r : Registry) (id : RecordId) (hint : String) (added : List Field)
    (self : List String) : RecordId × Registry :=
  if added.isEmpty && self.isEmpty then (id, r)
  else
    let overlaid := (added ++ self.map (Field.mk · (.record 0))).foldl overlay (r.fields id)
    let (out, r) := r.register (if hint = "" then r.hint id else hint) overlaid
    (out, r.closeSelf out)

/-- The container kept under the key of `l`, which is `l` itself if there was none. A container of
another kind under that key is noted as a clash. -/
def intern (r : Registry) (l : Layout) : Layout × Registry :=
  match r.containers.lookup l.key with
  | none => (l, { r with containers := (l.key, l) :: r.containers })
  | some kept =>
    if kept.container? = l.container? then (kept, r)
    else (l, { r with clash := r.clash <|> some ⟨kept.container?, l.container?⟩ })

/-- The array of fixed length. -/
def fixedArray (r : Registry) (elem : Layout) (capacity : Int) : Layout × Registry :=
  r.intern (.fixed elem capacity)

/-- The array of growing length. -/
def dynamicArray (r : Registry) (elem : Layout) : Layout × Registry := r.intern (.dynamic elem)

/-- The dictionary. -/
def dictionary (r : Registry) (elem : Layout) : Layout × Registry := r.intern (.dict elem)

end Registry

end LayoutInference
