import LayoutInference.Yaml.Node
import LayoutInference.Yaml.Token.Stream

/-!
# Reading YAML

The first document of a text as a graph of nodes: a tree with aliases. `Graph.read` follows the grammar
of the format over the tokens of the text; what stands after the first document is looked at only as
far as the tokens are read ahead.

Every level of nesting and every entry takes one unit of fuel, so that a multiple of the length of the
text is enough (`Graph.fuelFor`).
-/

namespace LayoutInference.Yaml

/-- A document: its root, and the nodes that aliases name, by number. -/
structure Graph where
  root : Node
  anchored : List (Nat × Node) := []

namespace Graph

/-- What is known while a document is read. -/
structure State where
  stream : Stream
  /-- What tag handles stand for. -/
  handles : List (String × String) := []
  /-- The names of anchors with the numbers of their nodes, the last one first. -/
  anchors : List (String × Nat) := []
  anchored : List (Nat × Node) := []

/-- Reading with a state that may meet trouble. -/
abbrev Reader := StateT State (Except Trouble)

/-- The trouble with a token that is part of what started at a position. Lines count from 0 here, and
the first one is passed over for the other. -/
def trouble (start : Position) (token : Token) (problem : Problem) : Trouble :=
  ⟨problem, if start.line ≠ 0 then start.line else token.position.line⟩

/-- The next token. -/
def peek : Reader Token := do
  let st ← get
  let stream ← st.stream.fill
  set { st with stream }
  return stream.queue.head?.getD ⟨.streamEnd, stream.cursor.position⟩

/-- Take the next token. -/
def advance : Reader Unit := modify fun st => { st with stream := st.stream.take }

/-- Take the next token and look at the one after it. -/
def advanceAndPeek : Reader Token := do
  advance
  peek

/-! ## Directives -/

/-- The tag handles that every document has. -/
def defaultHandles : List (String × String) := [("!", "!"), ("!!", ownTagStart)]

/-- Read the directives of a document; `versioned` tells whether one of them gave the version. -/
def readDirectives : (fuel : Nat) → (versioned : Bool) → Reader Unit
  | 0, _ => pure ()
  | fuel + 1, versioned => do
    let token ← peek
    match token.kind with
    | .version major minor =>
      if versioned then throw (trouble {} token .repeatedVersion)
      if (major, minor) ≠ (1, 1) then throw (trouble {} token .foreignVersion)
      advance
      readDirectives fuel true
    | .tagHandle handle expansion =>
      if ((← get).handles.lookup handle).isSome then throw (trouble {} token .repeatedHandle)
      modify fun st => { st with handles := st.handles ++ [(handle, expansion)] }
      advance
      readDirectives fuel versioned
    | _ => modify fun st => { st with handles := st.handles ++ defaultHandles }

/-! ## Nodes -/

/-- What stands in front of a node: an anchor and a tag in either order. -/
structure Properties where
  anchor : Option String := none
  /-- The tag with its handle and where it stands. -/
  tag : Option (String × String × Token) := none

/-- Read the properties of a node and the token after them. -/
def readProperties (token : Token) : Reader (Properties × Token) := do
  match token.kind with
  | .anchor name =>
    let token ← advanceAndPeek
    match token.kind with
    | .tag handle suffix =>
      return ({ anchor := some name, tag := some (handle, suffix, token) }, ← advanceAndPeek)
    | _ => return ({ anchor := some name }, token)
  | .tag handle suffix =>
    let tag := some (handle, suffix, token)
    let token ← advanceAndPeek
    match token.kind with
    | .anchor name => return ({ anchor := some name, tag }, ← advanceAndPeek)
    | _ => return ({ tag }, token)
  | _ => return ({}, token)

/-- The tag that properties give, if they give one. A tag of a mark alone says nothing. -/
def Properties.fullTag? (properties : Properties) (start : Position) : Reader (Option String) := do
  match properties.tag with
  | none => return none
  | some (handle, suffix, token) =>
    if handle.isEmpty then return some suffix
    match (← get).handles.lookup handle with
    | some expansion => return some (expansion ++ suffix)
    | none => throw (trouble start token .unknownHandle)

/-- The tag of a node in its short form, `untagged` being the one it has by itself. -/
def nodeTag (tag? : Option String) (untagged : String) : String :=
  match tag? with
  | none => untagged
  | some tag => if tag = "!" then untagged else shortTag tag

/-- Note that a node with an anchor starts, and give its number. -/
def noteAnchor (properties : Properties) : Reader (Option Nat) := do
  match properties.anchor with
  | none => return none
  | some name =>
    let number := (← get).anchors.length
    modify fun st => { st with anchors := (name, number) :: st.anchors }
    return some number

/-- Keep a node under its number, if it has one. -/
def keepAnchored (number? : Option Nat) (node : Node) : Reader Node := do
  match number? with
  | none => return node
  | some number =>
    modify fun st => { st with anchored := (number, node) :: st.anchored }
    return node

/-- Read an alias. -/
def readAlias (token : Token) (name : String) : Reader Node := do
  match (← get).anchors.lookup name with
  | none => throw ⟨.unknownAnchor name, 0⟩
  | some number =>
    advance
    return .alias (token.position.line + 1) token.position.index name number

/-- Whether a token ends an entry of a block collection. -/
def endsBlockEntry (kind : Token.Kind) : Bool :=
  kind = .key || kind = .value || kind = .blockEnd

/-- Whether a token ends an entry of a flow collection that is closed by `closing`. -/
def endsFlowEntry (closing kind : Token.Kind) : Bool := kind = .comma || kind = closing

mutual

/-- Read a node. In a block it may be a block collection; the items of a sequence that is the value of a
key need not be indented. -/
def readNode (inBlock unindented : Bool) : (fuel : Nat) → Reader Node
  | 0 => do return .nothing (← peek).position.line
  | fuel + 1 => do
    let first ← peek
    if let .alias name := first.kind then return ← readAlias first name
    let (properties, token) ← readProperties first
    let start := first.position
    let line := start.line + 1
    let tag? ← properties.fullTag? start
    if unindented ∧ token.kind = .item then
      let number? ← noteAnchor properties
      let items ← readUnindentedItems fuel
      keepAnchored number? (.sequence line (nodeTag tag? "!!seq") items)
    else match token.kind with
    | .scalar isPlain text =>
      let number? ← noteAnchor properties
      advance
      keepAnchored number? (.scalar line (nodeTag tag? (untaggedScalar isPlain text)) text)
    | .openSequence =>
      let number? ← noteAnchor properties
      advance
      let items ← readFlowItems token.position true fuel
      keepAnchored number? (.sequence line (nodeTag tag? "!!seq") items)
    | .openMapping =>
      let number? ← noteAnchor properties
      advance
      let entries ← readFlowEntries token.position true fuel
      keepAnchored number? (.mapping line (nodeTag tag? "!!map") entries)
    | .blockSequence =>
      if !inBlock then throw (trouble start token .missingNode)
      let number? ← noteAnchor properties
      advance
      let items ← readBlockItems token.position fuel
      keepAnchored number? (.sequence line (nodeTag tag? "!!seq") items)
    | .blockMapping =>
      if !inBlock then throw (trouble start token .missingNode)
      let number? ← noteAnchor properties
      advance
      let entries ← readBlockEntries token.position fuel
      keepAnchored number? (.mapping line (nodeTag tag? "!!map") entries)
    | _ =>
      if properties.anchor.isNone ∧ tag?.isNone then throw (trouble start token .missingNode)
      let number? ← noteAnchor properties
      keepAnchored number? (.scalar line (nodeTag tag? (untaggedScalar true "")) "")

/-- Read the items of a sequence that is not indented. -/
def readUnindentedItems : (fuel : Nat) → Reader (List Node)
  | 0 => return []
  | fuel + 1 => do
    let token ← peek
    if token.kind ≠ .item then return []
    let next ← advanceAndPeek
    let item ←
      if next.kind = .item ∨ endsBlockEntry next.kind then pure (.nothing (token.position.line + 1))
      else readNode true false fuel
    return item :: (← readUnindentedItems fuel)

/-- Read the items of a block sequence that started at a position. -/
def readBlockItems (start : Position) : (fuel : Nat) → Reader (List Node)
  | 0 => return []
  | fuel + 1 => do
    let token ← peek
    match token.kind with
    | .item =>
      let next ← advanceAndPeek
      let item ←
        if next.kind = .item ∨ next.kind = .blockEnd then pure (.nothing (token.position.line + 1))
        else readNode true false fuel
      return item :: (← readBlockItems start fuel)
    | .blockEnd =>
      advance
      return []
    | _ => throw (trouble start token .missingItem)

/-- Read the entries of a block mapping that started at a position. -/
def readBlockEntries (start : Position) : (fuel : Nat) → Reader (List (Node × Node))
  | 0 => return []
  | fuel + 1 => do
    let token ← peek
    match token.kind with
    | .key =>
      let next ← advanceAndPeek
      let key ←
        if endsBlockEntry next.kind then pure (.nothing (token.position.line + 1))
        else readNode true true fuel
      let value ← readBlockValue fuel
      return (key, value) :: (← readBlockEntries start fuel)
    | .blockEnd =>
      advance
      return []
    | _ => throw (trouble start token .missingKey)

/-- Read the value of an entry of a block mapping. -/
def readBlockValue : (fuel : Nat) → Reader Node
  | 0 => do return .nothing (← peek).position.line
  | fuel + 1 => do
    let token ← peek
    let line := token.position.line + 1
    if token.kind ≠ .value then return .nothing line
    let next ← advanceAndPeek
    if endsBlockEntry next.kind then return .nothing line
    readNode true true fuel

/-- Read the items of a flow sequence that started at a position; `isFirst` tells whether no comma has
to come before the next one. An item may be a single pair. -/
def readFlowItems (start : Position) (isFirst : Bool) : (fuel : Nat) → Reader (List Node)
  | 0 => return []
  | fuel + 1 => do
    let token ← peek
    if token.kind = .closeSequence then
      advance
      return []
    if !isFirst ∧ token.kind ≠ .comma then throw (trouble start token (.openFlow ']'))
    let token ← if isFirst then pure token else advanceAndPeek
    match token.kind with
    | .closeSequence =>
      advance
      return []
    | .key =>
      advance
      let item ← readPair (token.position.line + 1) fuel
      return item :: (← readFlowItems start false fuel)
    | _ =>
      let item ← readNode false false fuel
      return item :: (← readFlowItems start false fuel)

/-- Read the key and the value of a pair that is an item of a flow sequence. What stands in place of a
missing key is passed over. -/
def readPair (line : Nat) : (fuel : Nat) → Reader Node
  | 0 => return .nothing line
  | fuel + 1 => do
    let token ← peek
    let key ←
      if token.kind = .value ∨ endsFlowEntry .closeSequence token.kind then do
        advance
        pure (.nothing (token.position.line + 1))
      else readNode false false fuel
    let value ← readFlowValue .closeSequence fuel
    let _ ← peek
    return .mapping line "!!map" [(key, value)]

/-- Read the entries of a flow mapping that started at a position; `isFirst` tells whether no comma has
to come before the next one. -/
def readFlowEntries (start : Position) (isFirst : Bool) :
    (fuel : Nat) → Reader (List (Node × Node))
  | 0 => return []
  | fuel + 1 => do
    let token ← peek
    if token.kind = .closeMapping then
      advance
      return []
    if !isFirst ∧ token.kind ≠ .comma then throw (trouble start token (.openFlow '\x7d'))
    let token ← if isFirst then pure token else advanceAndPeek
    match token.kind with
    | .closeMapping =>
      advance
      return []
    | .key =>
      let next ← advanceAndPeek
      let key ←
        if next.kind = .value ∨ endsFlowEntry .closeMapping next.kind then
          pure (.nothing (next.position.line + 1))
        else readNode false false fuel
      let value ← readFlowValue .closeMapping fuel
      return (key, value) :: (← readFlowEntries start false fuel)
    | _ =>
      let key ← readNode false false fuel
      let next ← peek
      let value := .nothing (next.position.line + 1)
      return (key, value) :: (← readFlowEntries start false fuel)

/-- Read the value of an entry of a flow collection that is closed by `closing`. -/
def readFlowValue (closing : Token.Kind) : (fuel : Nat) → Reader Node
  | 0 => do return .nothing (← peek).position.line
  | fuel + 1 => do
    let token ← peek
    if token.kind ≠ .value then return .nothing (token.position.line + 1)
    let next ← advanceAndPeek
    if endsFlowEntry closing next.kind then return .nothing (next.position.line + 1)
    readNode false false fuel

end

/-! ## Documents -/

/-- Whether a token starts a document with directives. -/
def startsDocument : Token.Kind → Bool
  | .version _ _ | .tagHandle _ _ | .documentStart => true
  | _ => false

/-- Whether a token ends a document. -/
def endsDocument (kind : Token.Kind) : Bool :=
  startsDocument kind || kind = .documentEnd || kind = .streamEnd

/-- Read the first document and look at the token after it. -/
def readDocument (fuel : Nat) : Reader Node := do
  let token ← peek
  if token.kind = .streamEnd then return .nothing (token.position.line + 1)
  readDirectives fuel false
  if startsDocument token.kind then
    let token ← peek
    if token.kind ≠ .documentStart then throw (trouble {} token .missingDocument)
    let token ← advanceAndPeek
    if endsDocument token.kind then return .nothing (token.position.line + 1)
  let root ← readNode true false fuel
  let _ ← peek
  return root

/-- Enough fuel for a text. -/
def fuelFor (text : String) : Nat := 8 * text.length + 16

/-- Read the first document of a text; an empty one is null. -/
def read (text : String) : Except Trouble Graph := do
  let stream ← Stream.ofText text
  let (root, st) ← (readDocument (fuelFor text)).run { stream }
  return { root, anchored := st.anchored }

end Graph

end LayoutInference.Yaml
