import LayoutInference.Inference
import LayoutInference.Text.Base64
import LayoutInference.Text.Quoted
import LayoutInference.Yaml.Graph

/-!
# Settings in a document

The settings that a YAML mapping gives, over those that are there. Values of another type than their
setting are collected as mismatches, and reading goes on after them. The key `<<` merges the fields of
other mappings, which count less than those of the mapping itself.

A document in which aliases make up nearly everything is refused (`Intake.isExcessive`).
-/

namespace LayoutInference

/-- The settings of a run. -/
structure Settings where
  maxIterations : Int := defaultMaxIterations
  /-- The format of reports as it was given, which need not be text. -/
  format : List Glyph := Glyph.ofText "text"
  /-- Show the diagnostics of a run. -/
  verbose : Bool := false
  /-- Show the raw result of a run. -/
  dump : Bool := false
deriving DecidableEq, Repr

namespace Settings

open Yaml (Problem Trouble Meaning Graph)

/-- What kept a document from being read as settings. -/
inductive Mismatch where
  /-- A value of another type than its setting. -/
  | wrongType (line : Nat) (tag : String) (value : Option String) (wanted : String)
  /-- A key that stands twice in a mapping. -/
  | repeatedKey (line : Nat) (key : String) (firstLine : Nat)
  /-- A setting that is given twice by keys that are written differently. -/
  | repeatedField (line : Nat) (name : String)
deriving DecidableEq, Repr

/-- The type that a document of settings is read as. -/
def documentType : String := "config.Config"

/-- A value as a message shows it: long ones are cut after seven bytes. -/
def shownValue (value : String) : String :=
  let bytes := value.toUTF8.toList
  if bytes.length ≤ 10 then value else Glyph.shownText (Glyph.ofBytes (bytes.take 7)) ++ "..."

/-- The wording of a mismatch. -/
def Mismatch.message : Mismatch → String
  | .wrongType line tag value wanted =>
    let shown := match value with
      | none => ""
      | some value => " \x60" ++ shownValue value ++ "\x60"
    "line " ++ toString line ++ ": cannot unmarshal " ++ tag ++ shown ++ " into " ++ wanted
  | .repeatedKey line key firstLine =>
    "line " ++ toString line ++ ": mapping key " ++ quoted key ++ " already defined at line "
      ++ toString firstLine
  | .repeatedField line name =>
    "line " ++ toString line ++ ": field " ++ name ++ " already set in type " ++ documentType

/-- The repeated keys of a mapping: each pair of equal keys, by the earlier one and then the later. -/
def repeatedKeys : List (Yaml.Node × Yaml.Node) → List Mismatch
  | [] => []
  | (key, _) :: entries =>
    (entries.filter fun entry => key.writtenLike entry.1).map
        (fun entry => .repeatedKey entry.1.line entry.1.text key.line)
      ++ repeatedKeys entries

/-- The mismatch of a node that is read as a value of another type. -/
def wrongType (wanted : String) (node : Yaml.Node) : Mismatch :=
  let value := if node.tag = "!!seq" ∨ node.tag = "!!map" then none else some node.text
  .wrongType node.line node.tag value wanted

/-- The mismatches of a node that is read as a value of another type. -/
def mismatches (wanted : String) : Yaml.Node → List Mismatch
  | .mapping line tag entries =>
    match repeatedKeys entries with
    | [] => [wrongType wanted (.mapping line tag entries)]
    | repeated => repeated
  | node => [wrongType wanted node]

/-! ## Values -/

/-- The integer part of a floating-point number of at most `2 ^ 63`, the least word if it is not a
word. -/
def wordOfReal? : Yaml.Real → Option Int
  | .nan => none
  | .infinite negative => if negative then some wordMin else none
  | .finite x =>
    let whole := x.truncate
    if whole > wordMax + 1 then none else some ((inWord? whole).getD wordMin)

/-- The integer that a scalar stands for, given its meaning. -/
def integer? (m : Meaning) (_ : List Glyph) : Option Int :=
  match m with
  | .integer n => inWord? n
  | .real x => wordOfReal? x
  | _ => none

/-- The truth value that a scalar stands for, given its meaning. Some words of older versions of the
format are taken. -/
def boolean? (m : Meaning) (content : List Glyph) : Option Bool :=
  match m with
  | .boolean b => some b
  | .text =>
    if content ∈ ["y", "Y", "yes", "on"].map Glyph.ofText then some true
    else if content ∈ ["n", "N", "no", "off"].map Glyph.ofText then some false
    else none
  | _ => none

/-- What a scalar is written as, whatever it means. -/
def content? (_ : Meaning) (content : List Glyph) : Option (List Glyph) := some content

/-- The meaning of a scalar with a tag and what it is written as. Binary data stands for its bytes. -/
def scalarContent (tag text : String) : Except Problem (Meaning × List Glyph) :=
  if tag = "!!binary" then
    match base64? text with
    | some bytes => .ok (.text, Glyph.ofBytes bytes)
    | none => .error .malformedBinary
  else do return (← Yaml.taggedMeaning tag text, Glyph.ofText text)

/-! ## Documents -/

/-- What is read of a document so far. -/
structure Intake where
  settings : Settings
  mismatches : List Mismatch := []
  /-- The number of nodes looked at. -/
  visits : Nat := 0
  /-- The number of those that an alias led to. -/
  aliasVisits : Nat := 0

/-- Whether too many of the nodes looked at were reached through aliases. For up to 400 000 nodes 99 of
100 are too many, for more the share falls to a tenth at 4 000 000. -/
def Intake.isExcessive (i : Intake) : Bool :=
  let low := 400000
  let high := 4000000
  let excess := min i.visits high - low
  i.aliasVisits > 100 && i.visits > 1000
    && 100 * (high - low) * i.aliasVisits > (99 * (high - low) - 89 * excess) * i.visits

/-- Reading that collects what it finds and may meet trouble. -/
abbrev Reader := StateT Intake (Except Trouble)

/-- Meet a problem that no line is named for. -/
def refuse {α : Type} (problem : Problem) : Reader α := throw ⟨problem, 0⟩

/-- Note mismatches. -/
def report (found : List Mismatch) : Reader Unit :=
  modify fun i => { i with mismatches := i.mismatches ++ found }

/-- Count a node that is looked at while the aliases at the given places are followed. -/
def visit (followed : List Nat) : Reader Unit := do
  modify fun i => { i with
    visits := i.visits + 1
    aliasVisits := i.aliasVisits + (if followed.isEmpty then 0 else 1) }
  if (← get).isExcessive then refuse .excessiveAliases

/-- Look at a node, or at the node that it is an alias of. Also gives the aliases followed to it. -/
def visitNode (g : Graph) (followed : List Nat) (node : Yaml.Node) : Reader (Yaml.Node × List Nat) := do
  visit followed
  match node with
  | .alias line place name number =>
    if followed.contains place then refuse (.endlessAnchor name)
    visit (place :: followed)
    return ((g.anchored.lookup number).getD (.nothing line), place :: followed)
  | node => return (node, followed)

/-- Read a node as a value of a type, none if it is null or of another type. -/
def readAs {α : Type} (wanted : String) (read? : Meaning → List Glyph → Option α) (g : Graph)
    (followed : List Nat) (node : Yaml.Node) : Reader (Option α) := do
  match (← visitNode g followed node).1 with
  | .scalar line tag text =>
    let (m, content) ← liftM ((scalarContent tag text).mapError fun problem => (⟨problem, 0⟩ : Trouble))
    if m = .null then return none
    match read? m content with
    | some value => return some value
    | none =>
      report (mismatches wanted (.scalar line tag text))
      return none
  | node =>
    report (mismatches wanted node)
    return none

/-- Read a node as the value of a setting, which a null value leaves as it is. -/
def readInto {α : Type} (wanted : String) (read? : Meaning → List Glyph → Option α)
    (change : α → Settings → Settings) (g : Graph) (followed : List Nat) (node : Yaml.Node) :
    Reader Unit := do
  match ← readAs wanted read? g followed node with
  | some value => modify fun i => { i with settings := change value i.settings }
  | none => return

/-- The names of the settings. -/
def names : List String := ["max_iterations", "format", "verbose", "dump"]

/-- Read the value of the setting with a name. -/
def readSetting (name : String) : Graph → List Nat → Yaml.Node → Reader Unit :=
  match name with
  | "max_iterations" => readInto "int" integer? fun value s => { s with maxIterations := value }
  | "format" => readInto "string" content? fun value s => { s with format := value }
  | "verbose" => readInto "bool" boolean? fun value s => { s with verbose := value }
  | "dump" => readInto "bool" boolean? fun value s => { s with dump := value }
  | _ => fun _ _ _ => return

/-- The names that entries of a mapping have been given, and what is left to be merged. -/
structure Fields where
  /-- The names whose value is settled while mappings are merged; none in the document itself. -/
  settled : Option (List String)
  /-- The settings given so far. -/
  given : List String := []
  /-- The value of the merge key. -/
  merged : Option Yaml.Node := none

/-- Read the value of an entry with a name. Unknown names are passed over. -/
def readField (g : Graph) (followed : List Nat) (fields : Fields) (name : String) (key value : Yaml.Node) :
    Reader Fields := do
  if fields.settled.any (·.contains name) then return fields
  let fields := { fields with settled := fields.settled.map (name :: ·) }
  if !names.contains name then return fields
  if fields.given.contains name then
    report [.repeatedField key.line name]
    return fields
  readSetting name g followed value
  return { fields with given := name :: fields.given }

/-- Read the entries of a mapping in order. -/
def readEntries (g : Graph) (followed : List Nat) (fields : Fields) :
    List (Yaml.Node × Yaml.Node) → Reader Fields
  | [] => return fields
  | (key, value) :: entries => do
    if key.isMerge then readEntries g followed { fields with merged := some value } entries
    else match ← readAs "string" content? g followed key with
      | none => readEntries g followed fields entries
      | some content =>
        let fields ← readField g followed fields (Glyph.shownText content) key value
        readEntries g followed fields entries

/-- The names of the entries of a mapping. -/
def entryNames (g : Graph) (followed : List Nat) : List (Yaml.Node × Yaml.Node) → Reader (List String)
  | [] => return []
  | (key, _) :: entries => do
    let names ← match (← visitNode g followed key).1 with
      | .scalar _ tag text =>
        pure ((scalarContent tag text).toOption.toList.map fun c => Glyph.shownText c.2)
      | _ => pure []
    return names ++ (← entryNames g followed entries)

mutual

/-- Read a mapping. `settled` are the names whose value is settled already if the mapping is merged into
another; the answer is what they are afterwards. -/
def readMapping (g : Graph) : (fuel : Nat) → (followed : List Nat) → (settled : Option (List String)) →
    List (Yaml.Node × Yaml.Node) → Reader (Option (List String))
  | 0, _, settled, _ => return settled
  | fuel + 1, followed, settled, entries => do
    let repeated := repeatedKeys entries
    if !repeated.isEmpty then
      report repeated
      return settled
    let fields ← readEntries g followed { settled } entries
    match fields.merged with
    | none => return fields.settled
    | some source =>
      let own ← match fields.settled with
        | some names => pure names
        | none => entryNames g followed entries
      let names ← readMerged g fuel followed own source
      return fields.settled.map fun _ => names

/-- Read the mappings that are merged into another one, in order. -/
def readMerged (g : Graph) : (fuel : Nat) → (followed : List Nat) → (settled : List String) →
    (source : Yaml.Node) → Reader (List String)
  | 0, _, settled, _ => return settled
  | fuel + 1, followed, settled, source => do
    match source with
    | .sequence _ _ items => readMergedItems g fuel followed settled items
    | source => readMergedItems g fuel followed settled [source]

/-- Read the mappings of a list that are merged into another one. -/
def readMergedItems (g : Graph) : (fuel : Nat) → (followed : List Nat) → (settled : List String) →
    (sources : List Yaml.Node) → Reader (List String)
  | 0, _, settled, _ => return settled
  | _, _, settled, [] => return settled
  | fuel + 1, followed, settled, source :: sources => do
    let target := match source with
      | .alias _ _ _ number => g.anchored.lookup number
      | source => some source
    if target.any (·.kind ≠ .mapping) then refuse .mergeWithoutFields
    let settled ← match ← visitNode g followed source with
      | (.mapping _ _ entries, followed) =>
        pure ((← readMapping g fuel followed (some settled) entries).getD settled)
      | _ => pure settled
    readMergedItems g fuel followed settled sources

end

/-- Read the root of a document. -/
def readRoot (g : Graph) (fuel : Nat) : Reader Unit := do
  visit []
  match g.root with
  | .mapping _ _ entries =>
    visit []
    let _ ← readMapping g fuel [] none entries
  | root =>
    let _ ← @readAs Unit documentType (fun _ _ => none) g [] root

/-- Read the text of a document over settings. -/
def readDocument (s : Settings) (text : String) : Except Trouble (Settings × List Mismatch) := do
  let g ← Graph.read text
  let ((), intake) ← (readRoot g (Graph.fuelFor text * (g.anchored.length + 2))).run { settings := s }
  return (intake.settings, intake.mismatches)

end Settings

end LayoutInference
