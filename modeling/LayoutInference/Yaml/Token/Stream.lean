import LayoutInference.Yaml.Token.Block
import LayoutInference.Yaml.Token.Plain
import LayoutInference.Yaml.Token.Quoted
import LayoutInference.Yaml.Token.Tag

/-!
# The tokens of a text

A `Stream` reads tokens off a text one after the other. That a scalar or collection is a key shows only
at the colon after it, so tokens wait in a queue and the mark of a key is put in front of those that
wait. `Stream.fill` reads until the first token of the queue is certain; it looks a fixed number of
tokens ahead, which decides what trouble is met first.

A key that is not marked as one has to be followed by its colon on the same line (`KeyPlace.stands`).
-/

namespace LayoutInference.Yaml

/-- A place where a key may have started, one for each level of flow collections. -/
structure KeyPlace where
  /-- Whether a key may have started here. -/
  isPossible : Bool := false
  /-- Whether nothing but a key can stand here. -/
  isRequired : Bool := false
  /-- Whether the token of this place waits for its colon. -/
  isAwaited : Bool := false
  /-- The number of the token of this place. -/
  number : Nat := 0
  position : Position := {}
deriving DecidableEq, Repr

/-- Tokens being read off a text. -/
structure Stream where
  cursor : Cursor
  /-- The tokens read and not taken. -/
  queue : List Token := []
  /-- The number of tokens taken, which is the number of the first token of the queue. -/
  taken : Nat := 1
  /-- The columns of the blocks that are open, innermost first. -/
  blocks : List Nat := []
  /-- The place where a key may have started on the innermost level. -/
  place : KeyPlace := {}
  /-- The places of the levels around it. -/
  outerPlaces : List KeyPlace := []
  /-- Whether a key may start here. -/
  keyAllowed : Bool := true
  /-- Whether the text started with a second order mark, for which the first character of every line is
  passed over. -/
  dropsFirst : Bool := false

/-- The greatest number of nested blocks and of nested flow collections. -/
def depthLimit : Nat := 10000

/-- How far behind its start the colon of a key may stand. -/
def keyReach : Nat := 1024

/-- How many tokens are read at least before the first one is taken. -/
def lookAhead : Nat := 3

namespace Stream

/-- Whether the stream is inside a flow collection. -/
def inFlow (s : Stream) : Bool := !s.outerPlaces.isEmpty

/-- The column of the innermost block plus one, 0 outside blocks. -/
def indent (s : Stream) : Nat := (s.blocks.head?.map (· + 1)).getD 0

/-- The number of the token that is read next. -/
def nextNumber (s : Stream) : Nat := s.taken + s.queue.length

/-- The trouble with what started at a position. -/
def trouble (s : Stream) (start : Position) (problem : Problem) : Trouble :=
  s.cursor.trouble start problem

/-- The trouble with what stands here. -/
def troubleHere (s : Stream) (problem : Problem) : Trouble := s.trouble s.cursor.position problem

/-- Add a token. -/
def push (s : Stream) (kind : Token.Kind) (position : Position) : Stream :=
  { s with queue := s.queue ++ [⟨kind, position⟩] }

/-- Add a token and go on after it. -/
def pushTo (s : Stream) (kind : Token.Kind) (cursor : Cursor) : Stream :=
  { s.push kind s.cursor.position with cursor }

/-- Add a token of `width` characters that start here. -/
def pushMark (s : Stream) (kind : Token.Kind) (width : Nat) : Stream :=
  s.pushTo kind (s.cursor.skip width)

/-- Put a token in front of the one with a given number. If that one is taken already, the token comes
last. -/
def insert (s : Stream) (number : Nat) (kind : Token.Kind) (position : Position) : Stream :=
  if number < s.taken then s.push kind position
  else
    let index := number - s.taken
    { s with queue := s.queue.take index ++ ⟨kind, position⟩ :: s.queue.drop index }

/-! ## Keys -/

/-- Whether a key that started at a place may still end here. -/
def stands (s : Stream) (place : KeyPlace) : Except Trouble Bool :=
  if !place.isPossible then .ok false
  else if place.position.line < s.cursor.line
      ∨ place.position.index + keyReach < s.cursor.position.index then
    if place.isRequired then .error (s.trouble place.position .missingColon) else .ok false
  else .ok true

/-- Give up the key that may have started on this level. -/
def dropKey (s : Stream) : Except Trouble Stream :=
  if s.place.isPossible && s.place.isRequired then
    .error (s.trouble s.place.position .missingColon)
  else .ok { s with place := { s.place with isPossible := false, isAwaited := false } }

/-- Note that a key may start here. -/
def noteKey (s : Stream) : Except Trouble Stream := do
  if !s.keyAllowed then return s
  let place := {
    isPossible := true
    isRequired := !s.inFlow && s.blocks.head? = some s.cursor.column
    isAwaited := true
    number := s.nextNumber
    position := s.cursor.position }
  return { ← s.dropKey with place }

/-- Say whether a key may start here. -/
def allowKey (s : Stream) (keyAllowed : Bool) : Stream := { s with keyAllowed }

/-! ## Nesting -/

/-- Enter a flow collection that starts here. -/
def enterFlow (s : Stream) : Except Trouble Stream :=
  let position := s.cursor.position
  let outerPlaces := s.place :: s.outerPlaces
  if outerPlaces.length > depthLimit then .error (s.trouble position (.tooDeep depthLimit))
  else .ok { s with place := { number := s.nextNumber, position }, outerPlaces }

/-- Leave a flow collection. One in which no key started does not wait for a colon any more. -/
def leaveFlow (s : Stream) : Stream :=
  match s.outerPlaces with
  | [] => s
  | place :: outerPlaces =>
    let isAwaited := place.isAwaited && place.number ≠ s.place.number
    { s with place := { place with isAwaited }, outerPlaces }

/-- Open a block at a column if it is right of the blocks that are open. Its token comes in front of
the token with the given number, or last. -/
def openBlock (s : Stream) (column : Nat) (number : Option Nat) (kind : Token.Kind)
    (position : Position) : Except Trouble Stream :=
  if s.inFlow ∨ column < s.indent then .ok s
  else
    let opened := { s with blocks := column :: s.blocks }
    if opened.blocks.length > depthLimit then
      .error (s.trouble s.place.position (.tooDeep depthLimit))
    else match number with
      | some number => .ok (opened.insert number kind position)
      | none => .ok (opened.push kind position)

/-- Close the blocks that are not left of `indent`, the column after the last one that stays open. -/
def closeBlocks (s : Stream) (indent : Nat) (position : Position) : Stream :=
  if s.inFlow then s
  else
    let closed := s.blocks.takeWhile fun column => indent ≤ column
    { s with
      blocks := s.blocks.drop closed.length
      queue := s.queue ++ closed.map fun _ => ⟨.blockEnd, position⟩ }

/-! ## White space -/

/-- Pass white space and comments. A tab may not stand where a key may start in a block. -/
def skipSpace : (fuel : Nat) → Stream → Stream
  | 0, s => s
  | fuel + 1, s =>
    let c := s.cursor
    let c := if s.dropsFirst && c.column = 0 && !c.rest.isEmpty then c.next else c
    let c := c.skipWhile fun x => x = ' ' || (x = '\t' && (s.inFlow || !s.keyAllowed))
    let c := if c.seesChar '#' then Cursor.skipComments c.size c else c
    if c.sees isBreak then
      skipSpace fuel { s with cursor := c.skipBreak, keyAllowed := s.keyAllowed || !s.inFlow }
    else { s with cursor := c }

/-- Pass the comment after the token just read. The comment after a dash belongs to what follows. -/
def skipLineComment (s : Stream) : Stream :=
  if s.queue.getLast?.any (·.kind = .item) then s
  else { s with cursor := s.cursor.skipLineComment }

/-! ## Tokens -/

/-- The end of the text, which ends the line. -/
def readEnd (s : Stream) : Except Trouble Stream := do
  let p := s.cursor.position
  let p := if p.column = 0 then p else { p with line := p.line + 1, column := 0 }
  let s := { s with cursor := { s.cursor with position := p } }
  let s ← (s.closeBlocks 0 p).dropKey
  return (s.allowKey false).push .streamEnd p

/-- What stands outside documents closes all blocks. -/
def leaveDocument (s : Stream) : Except Trouble Stream := do
  return (← (s.closeBlocks 0 s.cursor.position).dropKey).allowKey false

/-- The dash of an item. -/
def readItem (s : Stream) : Except Trouble Stream := do
  if !s.inFlow && !s.keyAllowed then throw (s.troubleHere .strayItem)
  let s ← s.openBlock s.cursor.column none .blockSequence s.cursor.position
  return ((← s.dropKey).allowKey true).pushMark .item 1

/-- The question mark of a key. -/
def readKey (s : Stream) : Except Trouble Stream := do
  if !s.inFlow && !s.keyAllowed then throw (s.troubleHere .strayKey)
  let s ← s.openBlock s.cursor.column none .blockMapping s.cursor.position
  return ((← s.dropKey).allowKey !s.inFlow).pushMark .key 1

/-- The colon of a value. If a key ends here, it is marked as one. -/
def readValue (s : Stream) : Except Trouble Stream := do
  let place := s.place
  if ← s.stands place then
    let s := s.insert place.number .key place.position
    let s ← s.openBlock place.position.column (some place.number) .blockMapping place.position
    let s := { s with place := { s.place with isPossible := false, isAwaited := false } }
    return (s.allowKey false).pushMark .value 1
  else
    if !s.inFlow && !s.keyAllowed then throw (s.troubleHere .strayValue)
    let s ← s.openBlock s.cursor.column none .blockMapping s.cursor.position
    return (s.allowKey !s.inFlow).pushMark .value 1

/-- The start of a flow collection. -/
def readOpening (s : Stream) (kind : Token.Kind) : Except Trouble Stream := do
  return ((← (← s.noteKey).enterFlow).allowKey true).pushMark kind 1

/-- The end of a flow collection. -/
def readClosing (s : Stream) (kind : Token.Kind) : Except Trouble Stream := do
  return ((← s.dropKey).leaveFlow.allowKey false).pushMark kind 1

/-- A token that may be the start of a key: `read` gives it and what follows it. -/
def readPart (s : Stream) (read : Cursor → Except Trouble (Token.Kind × Cursor)) :
    Except Trouble Stream := do
  let s := (← s.noteKey).allowKey false
  let (kind, cursor) ← read s.cursor
  return s.pushTo kind cursor

/-- A plain scalar. After one that ends with its line a key may start. -/
def readPlainScalar (s : Stream) : Except Trouble Stream := do
  let s := (← s.noteKey).allowKey false
  let (text, endsLine, cursor) ← readPlain s.inFlow s.indent s.cursor
  return (s.pushTo (.scalar true text) cursor).allowKey endsLine

/-- A block scalar. -/
def readBlock (s : Stream) (isFolded : Bool) : Except Trouble Stream := do
  let s := (← s.dropKey).allowKey true
  let (text, cursor) ← readBlockScalar isFolded s.indent s.cursor
  return s.pushTo (.scalar false text) cursor

/-- Whether a plain scalar starts with a character, given what comes after the character. -/
def startsPlain (inFlow : Bool) (c : Char) (after : List Char) : Bool :=
  !(isBlank c || isBreak c || "-?:,[]\x7b\x7d#&*!|>'\"%@\x60".toList.contains c)
    || (c = '-' && !after.head?.any isBlank)
    || (!inFlow && (c = '?' || c = ':') && !endsWord after)

/-- Read the token that starts with character `c`, with `after` following. -/
def readToken (s : Stream) (c : Char) (after : List Char) : Except Trouble Stream :=
  if c = '[' then s.readOpening .openSequence
  else if c = '\x7b' then s.readOpening .openMapping
  else if c = ']' then s.readClosing .closeSequence
  else if c = '\x7d' then s.readClosing .closeMapping
  else if c = ',' then do return ((← s.dropKey).allowKey true).pushMark .comma 1
  else if c = '-' ∧ endsWord after then s.readItem
  else if c = '?' ∧ (s.inFlow ∨ endsWord after) then s.readKey
  else if c = ':' ∧ (s.inFlow ∨ endsWord after) then s.readValue
  else if c = '*' then s.readPart fun c => do
    let (name, c) ← readName c
    return (.alias name, c)
  else if c = '&' then s.readPart fun c => do
    let (name, c) ← readName c
    return (.anchor name, c)
  else if c = '!' then s.readPart fun c => do
    let ((handle, name), c) ← readTag c
    return (.tag handle name, c)
  else if c = '|' ∧ !s.inFlow then s.readBlock false
  else if c = '>' ∧ !s.inFlow then s.readBlock true
  else if c = '\'' ∨ c = '"' then s.readPart fun cursor => do
    let (text, cursor) ← readQuoted c cursor
    return (.scalar false text, cursor)
  else if startsPlain s.inFlow c after then s.readPlainScalar
  else .error (s.troubleHere .strayCharacter)

/-- Read the next token with those that go before it. -/
def read (s : Stream) : Except Trouble Stream := do
  let scanned := s.cursor.position
  let s := skipSpace (s.cursor.size + 1) s
  let s := s.closeBlocks (s.cursor.column + 1) scanned
  match s.cursor.rest with
  | [] => s.readEnd
  | c :: after =>
    if c = '%' ∧ s.cursor.column = 0 then
      let s ← s.leaveDocument
      let (kind, cursor) ← readDirective s.cursor
      return s.pushTo kind cursor
    else if s.cursor.atDocumentMark then
      let s ← s.leaveDocument
      return s.pushMark (if c = '-' then .documentStart else .documentEnd) 3
    else return (← s.readToken c after).skipLineComment

/-- Whether the first token of the queue may turn out to be a key. -/
def isUncertain (s : Stream) : Except Trouble Bool :=
  match (s.place :: s.outerPlaces).find? fun place => place.isAwaited && place.number = s.taken with
  | some place => s.stands place
  | none => .ok false

/-- Read tokens until the first one of the queue is certain and enough others follow it. -/
def fillWith : (fuel : Nat) → Stream → Except Trouble Stream
  | 0, s => .ok s
  | fuel + 1, s => do
    if s.queue.length < lookAhead then fillWith fuel (← s.read)
    else if ← s.isUncertain then fillWith fuel (← s.read)
    else return s

/-- Read tokens until the first one of the queue can be taken. -/
def fill (s : Stream) : Except Trouble Stream :=
  fillWith (s.cursor.size + lookAhead + 2) s

/-- Take the first token of the queue. -/
def take (s : Stream) : Stream := { s with queue := s.queue.drop 1, taken := s.taken + 1 }

end Stream

/-- Whether a character may stand in a text. -/
def isAllowed (c : Char) : Bool :=
  c = '\t' || c = '\n' || c = '\r' || c.toNat = 0x85 || (0x20 ≤ c.toNat && c.toNat ≤ 0x7E)
    || (0xA0 ≤ c.toNat && c.toNat ≤ 0xFFFD) || 0x10000 ≤ c.toNat

/-- Whether a text starts with a byte order mark. -/
def startsMarked (cs : List Char) : Bool := cs.head?.any (·.toNat = 0xFEFF)

/-- The tokens of a text, which may start with a byte order mark. -/
def Stream.ofText (text : String) : Except Trouble Stream :=
  let cs := text.toList
  let cs := if startsMarked cs then cs.drop 1 else cs
  if cs.all isAllowed then .ok { cursor := .ofList cs, dropsFirst := startsMarked cs }
  else .error ⟨.controlCharacter, 0⟩

end LayoutInference.Yaml
