import LayoutInference.Yaml.Cursor

/-!
# YAML tokens

The units that a YAML text is made of. Indentation shows as tokens of its own: `blockSequence` and
`blockMapping` open a block, `blockEnd` closes it.
-/

namespace LayoutInference.Yaml

/-- The kinds of tokens, with what they carry. -/
inductive Token.Kind where
  | streamEnd
  /-- The version of the format. -/
  | version (major minor : Nat)
  /-- What a tag handle stands for. -/
  | tagHandle (handle expansion : String)
  | documentStart
  | documentEnd
  | blockSequence
  | blockMapping
  | blockEnd
  | openSequence
  | closeSequence
  | openMapping
  | closeMapping
  /-- The dash of an item. -/
  | item
  /-- The comma of a flow collection. -/
  | comma
  /-- A key follows. -/
  | key
  /-- A value follows. -/
  | value
  | alias (name : String)
  | anchor (name : String)
  /-- A tag: a handle, empty for a tag written in full, and the name after it. -/
  | tag (handle name : String)
  | scalar (isPlain : Bool) (text : String)
deriving DecidableEq, Repr

/-- A token and where it starts. -/
structure Token where
  kind : Token.Kind
  position : Position
deriving DecidableEq, Repr

/-- The white space between two runs of characters of a scalar. -/
structure Gap where
  /-- The blanks of a gap in which no line ends. -/
  blanks : List Char := []
  /-- Whether a line ends in the gap. -/
  broken : Bool := false
  /-- The first line break; none if it was escaped. -/
  first : List Char := []
  /-- The line breaks after the first. -/
  more : List Char := []
deriving DecidableEq, Repr

namespace Gap

/-- What a gap stands for: its blanks, a blank for one line break, and all but the first of several. -/
def text (g : Gap) : List Char :=
  if !g.broken then g.blanks
  else if g.first.head? = some '\n' then (if g.more.isEmpty then [' '] else g.more)
  else g.first ++ g.more

/-- Read on in a gap. At the start of a line no tab may stand left of `indent`. -/
def read (start : Position) (indent : Nat) :
    (fuel : Nat) → Gap → Cursor → Except Trouble (Gap × Cursor)
  | 0, g, c => .ok (g, c)
  | fuel + 1, g, c =>
    match c.rest with
    | [] => .ok (g, c)
    | x :: _ =>
      if isBlank x then
        if !g.broken then read start indent fuel { g with blanks := g.blanks ++ [x] } c.next
        else if x = '\t' ∧ c.column < indent then .error (c.trouble start .tabBeforePlain)
        else read start indent fuel g c.next
      else if isBreak x then
        let (lineBreak, c) := c.takeBreak
        if g.broken then read start indent fuel { g with more := g.more ++ lineBreak } c
        else read start indent fuel { broken := true, first := lineBreak } c
      else .ok (g, c)

end Gap

end LayoutInference.Yaml
