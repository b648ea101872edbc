import LayoutInference.Yaml.Scalar
import LayoutInference.Yaml.Trouble

/-!
# Places in a text

A `Cursor` is a place in a text with what is left of the text from there. Lines end at a carriage
return, a line feed, both together, or one of three separators of Unicode (`isBreak`).
-/

namespace LayoutInference.Yaml

/-- A place in a text, counted in characters from 0. -/
structure Position where
  index : Nat := 0
  line : Nat := 0
  column : Nat := 0
deriving DecidableEq, Repr

/-- A place in a text and the rest of the text. -/
structure Cursor where
  rest : List Char
  /-- The number of characters of the whole text, a bound on what can be read from here. -/
  size : Nat
  position : Position := {}
  /-- Whether a line break was passed and nothing but blanks since. -/
  freshLine : Bool := false

/-- Whether a text is at its end or goes on with a line break. -/
def endsLine (cs : List Char) : Bool := cs.head?.all isBreak

/-- Whether a text is at its end or goes on with a blank or a line break. -/
def endsWord (cs : List Char) : Bool := cs.head?.all fun c => isBlank c || isBreak c

/-- Whether a character may stand in a name. -/
def isNameChar (c : Char) : Bool := c.isAlphanum || c = '_' || c = '-'

namespace Cursor

/-- The start of a text. -/
def ofList (cs : List Char) : Cursor := { rest := cs, size := cs.length }

/-- The line of a cursor, counted from 0. -/
def line (c : Cursor) : Nat := c.position.line

/-- The column of a cursor, counted from 0. -/
def column (c : Cursor) : Nat := c.position.column

/-- Whether the text goes on with a character of a kind. -/
def sees (c : Cursor) (kind : Char → Bool) : Bool := c.rest.head?.any kind

/-- Whether the text goes on with a given character. -/
def seesChar (c : Cursor) (char : Char) : Bool := c.rest.head? = some char

/-- Pass the next `n` characters, none of which is a line break. -/
def skip (c : Cursor) (n : Nat) : Cursor where
  size := c.size
  rest := c.rest.drop n
  position := { c.position with index := c.position.index + n, column := c.position.column + n }
  freshLine := c.freshLine && (c.rest.take n).all isBlank

/-- Pass the next character. -/
def next (c : Cursor) : Cursor := c.skip 1

/-- Read as many characters of a kind as there are. -/
def takeWhile (c : Cursor) (kind : Char → Bool) : List Char × Cursor :=
  let taken := c.rest.takeWhile kind
  (taken, c.skip taken.length)

/-- Pass as many characters of a kind as there are. -/
def skipWhile (c : Cursor) (kind : Char → Bool) : Cursor := (c.takeWhile kind).2

/-- Pass the rest of the line. -/
def skipLine (c : Cursor) : Cursor := c.skipWhile fun x => !isBreak x

/-- Move to the start of the next line, `n` characters ahead. -/
def startLine (c : Cursor) (n : Nat) : Cursor where
  size := c.size
  rest := c.rest.drop n
  position := ⟨c.position.index + n, c.position.line + 1, 0⟩
  freshLine := true

/-- Read a line break, if there is one. It counts as a line feed unless it separates lines or
paragraphs by name. -/
def takeBreak (c : Cursor) : List Char × Cursor :=
  match c.rest with
  | '\r' :: '\n' :: _ => (['\n'], c.startLine 2)
  | x :: _ =>
    if x = '\r' ∨ x = '\n' ∨ x.toNat = 0x85 then (['\n'], c.startLine 1)
    else if isBreak x then ([x], c.startLine 1)
    else ([], c)
  | [] => ([], c)

/-- Pass a line break, if there is one. -/
def skipBreak (c : Cursor) : Cursor := c.takeBreak.2

/-- Whether a document starts or ends here: three dashes or three points at the start of a line. -/
def atDocumentMark (c : Cursor) : Bool :=
  c.column = 0 && (c.rest.take 3 = ['-', '-', '-'] || c.rest.take 3 = ['.', '.', '.'])
    && endsWord (c.rest.drop 3)

/-- The trouble with what is read here and started at `start`. The line named is that of the start,
but a start on the first line is passed over for the line reached. -/
def trouble (c : Cursor) (start : Position) (problem : Problem) : Trouble :=
  let line := if start.line ≠ 0 then start.line else c.line
  ⟨problem, if line = 0 then 0 else line + 1⟩

/-- Pass white space up to a place that lies `index` characters into the text. -/
def skipSpaceTo (index : Nat) : (fuel : Nat) → Cursor → Cursor
  | 0, c => c
  | fuel + 1, c =>
    if index ≤ c.position.index then c
    else if c.sees isBreak then skipSpaceTo index fuel c.skipBreak
    else skipSpaceTo index fuel c.next

/-- How far ahead a comment is looked for. -/
def commentReach : Nat := 512

/-- Pass a comment and the comments after it, with nothing but white space between them. -/
def skipComments : (fuel : Nat) → Cursor → Cursor
  | 0, c => c
  | fuel + 1, c =>
    let c := c.skipLine
    let ahead := c.rest.take commentReach
    let space := ahead.takeWhile fun x => isBlank x || x = '\r' || x = '\n'
    if (ahead.drop space.length).head? = some '#' then
      skipComments fuel (skipSpaceTo (c.position.index + space.length) space.length c)
    else c

/-- Pass the comment that ends the line after what was just read. -/
def skipLineComment (c : Cursor) : Cursor :=
  let ahead := c.rest.take commentReach
  let blanks := ahead.takeWhile isBlank
  if !c.freshLine && (ahead.drop blanks.length).head? = some '#' then c.skipLine else c

end Cursor

end LayoutInference.Yaml
