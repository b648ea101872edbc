import LayoutInference.Yaml.Token

/-!
# Block scalars

Scalars that are written as indented lines, either line by line (literal) or with lines joined to
paragraphs (folded). A header says how; the indentation is that of the first line unless the header
gives it.
-/

namespace LayoutInference.Yaml

/-- What becomes of the line breaks at the end of a block scalar. -/
inductive Chomping where
  | strip
  | clip
  | keep
deriving DecidableEq, Repr

/-- The header of a block scalar. An indentation of 0 is one that is not given. -/
structure BlockHeader where
  chomping : Chomping := .clip
  indentation : Nat := 0
deriving DecidableEq, Repr

namespace BlockHeader

/-- The chomping that a character stands for. -/
def chomping? (c : Char) : Option Chomping :=
  if c = '+' then some .keep else if c = '-' then some .strip else none

/-- Read a chomping mark, if there is one. -/
def readChomping (h : BlockHeader) (c : Cursor) : BlockHeader × Cursor :=
  match c.rest.head?.bind chomping? with
  | some chomping => ({ h with chomping }, c.next)
  | none => (h, c)

/-- Read an indentation, if there is one. -/
def readIndentation (start : Position) (h : BlockHeader) (c : Cursor) :
    Except Trouble (BlockHeader × Cursor) :=
  match c.rest with
  | d :: _ =>
    if d = '0' then .error (c.trouble start .zeroIndentation)
    else if d.isDigit then .ok ({ h with indentation := d.toNat - '0'.toNat }, c.next)
    else .ok (h, c)
  | [] => .ok (h, c)

/-- Read a header and the rest of its line. Chomping and indentation may stand in either order. -/
def read (start : Position) (c : Cursor) : Except Trouble (BlockHeader × Cursor) := do
  let (h, c) ←
    if c.sees Char.isDigit then do
      let (h, c) ← readIndentation start {} c
      pure (h.readChomping c)
    else
      let (h, rest) := readChomping {} c
      if rest.position = c.position then pure (h, c) else readIndentation start h rest
  let c := c.skipWhile isBlank
  let c := if c.seesChar '#' then c.skipLine else c
  if !endsLine c.rest then throw (c.trouble start .missingLineEnd)
  return (h, c.skipBreak)

end BlockHeader

/-- Pass indentation and empty lines. Gives the greatest column reached, the line breaks passed and the
line with content. An indentation of 0 is not known yet. -/
def readEmptyLines (start : Position) (indent : Nat) :
    (fuel : Nat) → (deepest : Nat) → (breaks : List Char) → Cursor →
      Except Trouble (Nat × List Char × Cursor)
  | 0, deepest, breaks, c => .ok (deepest, breaks, c)
  | fuel + 1, deepest, breaks, c =>
    let room := if indent = 0 then c.size else indent - c.column
    let c := c.skip ((c.rest.take room).takeWhile (· = ' ')).length
    let deepest := max deepest c.column
    if (indent = 0 ∨ c.column < indent) ∧ c.seesChar '\t' then
      .error (c.trouble start .tabBeforeBlock)
    else if c.sees isBreak then
      let (lineBreak, c) := c.takeBreak
      readEmptyLines start indent fuel deepest (breaks ++ lineBreak) c
    else .ok (deepest, breaks, c)

/-- The lines of a block scalar that are read: the text of all but the end, the last line break, the
empty lines after it, and whether the last line starts with a blank. -/
structure BlockLines where
  text : List Char := []
  lineBreak : List Char := []
  emptyLines : List Char := []
  blank : Bool := false
deriving DecidableEq, Repr

/-- Add a line. Folding replaces the line break between two lines that do not start with a blank by a
blank, or by nothing if there are empty lines between them. -/
def BlockLines.add (isFolded : Bool) (lines : BlockLines) (line lineBreak emptyLines : List Char) :
    BlockLines :=
  let blank := line.head?.any isBlank
  let joint :=
    if isFolded && !lines.blank && !blank && lines.lineBreak.head? = some '\n' then
      if lines.emptyLines.isEmpty then [' '] else []
    else lines.lineBreak
  { text := lines.text ++ joint ++ lines.emptyLines ++ line, lineBreak, emptyLines, blank }

/-- The whole text, its end treated as asked for. -/
def BlockLines.chomp (chomping : Chomping) (lines : BlockLines) : List Char :=
  match chomping with
  | .strip => lines.text
  | .clip => lines.text ++ lines.lineBreak
  | .keep => lines.text ++ lines.lineBreak ++ lines.emptyLines

/-- Read on in a block scalar, line by line. -/
def readBlockLines (start : Position) (isFolded : Bool) (indent : Nat) :
    (fuel : Nat) → BlockLines → Cursor → Except Trouble (BlockLines × Cursor)
  | 0, lines, c => .ok (lines, c)
  | fuel + 1, lines, c => do
    if c.column ≠ indent ∨ c.rest.isEmpty then return (lines, c)
    let (line, c) := c.takeWhile fun x => !isBreak x
    let (lineBreak, c) := c.takeBreak
    let (_, emptyLines, c) ← readEmptyLines start indent (c.size + 1) 0 [] c
    readBlockLines start isFolded indent fuel (lines.add isFolded line lineBreak emptyLines) c

/-- Read a block scalar in a block indented by less than `outer`, its mark being the next character. -/
def readBlockScalar (isFolded : Bool) (outer : Nat) (c : Cursor) :
    Except Trouble (String × Cursor) := do
  let start := c.position
  let (header, c) ← BlockHeader.read start c.next
  let given := if header.indentation = 0 then 0 else outer - 1 + header.indentation
  let (deepest, emptyLines, c) ← readEmptyLines start given (c.size + 1) 0 [] c
  let indent := if given = 0 then max deepest (max outer 1) else given
  let (lines, c) ← readBlockLines start isFolded indent (c.size + 1) { emptyLines } c
  return (String.ofList (lines.chomp header.chomping), c)

end LayoutInference.Yaml
