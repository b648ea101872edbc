import LayoutInference.Yaml.Token

/-!
# Plain scalars

A scalar without quotes: runs of characters with gaps between them. It ends before a colon or a comment,
in a flow collection before a character of the collection, and in a block before a line that is not
indented deeper than the block.
-/

namespace LayoutInference.Yaml

/-- Whether a plain scalar ends before a character, given what comes after the character. -/
def endsPlain (inFlow : Bool) (c : Char) (after : List Char) : Bool :=
  isBlank c || isBreak c || (c = ':' && endsWord after)
    || (inFlow && ",?[]\x7b\x7d".toList.contains c)

/-- The characters of a plain scalar up to the next gap or its end. -/
def plainRun (inFlow : Bool) : List Char → List Char
  | [] => []
  | c :: cs => if endsPlain inFlow c cs then [] else c :: plainRun inFlow cs

/-- Read on in a plain scalar of which `text` is read, with a gap after it. Also tells whether the
scalar ends with the line. -/
def readPlainRuns (start : Position) (inFlow : Bool) (indent : Nat) :
    (fuel : Nat) → (text : List Char) → Gap → Cursor →
      Except Trouble (List Char × Bool × Cursor)
  | 0, text, gap, c => .ok (text, gap.broken, c)
  | fuel + 1, text, gap, c =>
    if c.atDocumentMark || c.seesChar '#' then .ok (text, gap.broken, c)
    else
      let run := plainRun inFlow c.rest
      if run.isEmpty then .ok (text, gap.broken, c)
      else do
        let text := text ++ gap.text ++ run
        let c := c.skip run.length
        let (gap, c) ← Gap.read start indent c.size {} c
        if gap = {} ∨ (!inFlow ∧ c.column < indent) then return (text, gap.broken, c)
        readPlainRuns start inFlow indent fuel text gap c

/-- Read a plain scalar in a block indented by less than `indent`. Also tells whether it ends with the
line. -/
def readPlain (inFlow : Bool) (indent : Nat) (c : Cursor) :
    Except Trouble (String × Bool × Cursor) := do
  let (text, endsLine, c) ← readPlainRuns c.position inFlow indent c.size [] {} c
  return (String.ofList text, endsLine, c)

end LayoutInference.Yaml
