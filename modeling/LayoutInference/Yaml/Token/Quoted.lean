import LayoutInference.Yaml.Token

/-!
# Quoted scalars

Scalars in single quotes, in which a quote is written twice, and in double quotes, in which a backslash
starts an escape. Both fold their lines as plain scalars do; an escaped line break joins two lines.
-/

namespace LayoutInference.Yaml

/-- The character of a one-letter escape. -/
def escape? (c : Char) : Option Char :=
  match c with
  | '0' => some (Char.ofNat 0x00)
  | 'a' => some (Char.ofNat 0x07)
  | 'b' => some (Char.ofNat 0x08)
  | 't' => some '\t'
  | '\t' => some '\t'
  | 'n' => some '\n'
  | 'v' => some (Char.ofNat 0x0B)
  | 'f' => some (Char.ofNat 0x0C)
  | 'r' => some '\r'
  | 'e' => some (Char.ofNat 0x1B)
  | ' ' => some ' '
  | '"' => some '"'
  | '\'' => some '\''
  | '\\' => some '\\'
  | 'N' => some (Char.ofNat 0x85)
  | '_' => some (Char.ofNat 0xA0)
  | 'L' => some (Char.ofNat 0x2028)
  | 'P' => some (Char.ofNat 0x2029)
  | _ => none

/-- The number of hexadecimal digits that an escape takes. -/
def escapeWidth? (c : Char) : Option Nat :=
  match c with
  | 'x' => some 2
  | 'u' => some 4
  | 'U' => some 8
  | _ => none

/-- The character with a number. -/
def charOfCode (code : Nat) : Except Problem Char :=
  if (0xD800 ≤ code ∧ code ≤ 0xDFFF) ∨ code > 0x10FFFF then .error .invalidCharacter
  else .ok (Char.ofNat code)

/-- What an escape stands for, the characters after the backslash being given, and how many of them
belong to it. -/
def readEscape : List Char → Except Problem (Char × Nat)
  | [] => .error .unknownEscape
  | c :: cs =>
    match escape? c, escapeWidth? c with
    | some d, _ => .ok (d, 1)
    | none, none => .error .unknownEscape
    | none, some width =>
      let digits := cs.take width
      match if digits.length = width then digits? 16 digits else none with
      | none => .error .missingHexDigit
      | some code => do return (← charOfCode code, width + 1)

/-- The characters of a quoted scalar up to the next gap or its end. -/
structure QuotedRun where
  text : List Char := []
  /-- How many characters it is written with. -/
  length : Nat := 0
  /-- Whether it ends at an escaped line break. -/
  joins : Bool := false
deriving DecidableEq, Repr

namespace QuotedRun

/-- A run with one more character in front, written with `width` characters. -/
def push (c : Char) (width : Nat) (run : QuotedRun) : QuotedRun :=
  { run with text := c :: run.text, length := run.length + width }

/-- The run in single quotes that a text starts with. -/
def single : List Char → QuotedRun
  | [] => {}
  | '\'' :: '\'' :: cs => (single cs).push '\'' 2
  | c :: cs => if isBlank c || isBreak c || c = '\'' then {} else (single cs).push c 1

/-- The run in double quotes that a text starts with, of which `skip` characters are read already. -/
def double : (skip : Nat) → List Char → Except Problem QuotedRun
  | _, [] => .ok {}
  | skip + 1, _ :: cs => double skip cs
  | 0, c :: cs =>
    if isBlank c || isBreak c || c = '"' then .ok {}
    else if c = '\\' then
      if cs.head?.any isBreak then .ok { joins := true }
      else do
        let (d, width) ← readEscape cs
        return (← double width cs).push d (width + 1)
    else do return (← double 0 cs).push c 1

/-- The run that a text starts with in the given quotes. -/
def read (quote : Char) (cs : List Char) : Except Problem QuotedRun :=
  if quote = '"' then double 0 cs else .ok (single cs)

end QuotedRun

/-- Read the rest of a quoted scalar of which `text` is read. -/
def readQuotedRuns (start : Position) (quote : Char) :
    (fuel : Nat) → (text : List Char) → Cursor → Except Trouble (List Char × Cursor)
  | 0, _, c => .error (c.trouble start .openQuote)
  | fuel + 1, text, c => do
    if c.atDocumentMark then throw (c.trouble start .documentMark)
    if c.rest.isEmpty then throw (c.trouble start .openQuote)
    let run ← (QuotedRun.read quote c.rest).mapError (c.trouble start)
    let text := text ++ run.text
    let c := c.skip run.length
    let c := if run.joins then c.next.skipBreak else c
    if c.seesChar quote then return (text, c.next)
    let (gap, c) ← Gap.read start 0 c.size { broken := run.joins } c
    readQuotedRuns start quote fuel (text ++ gap.text) c

/-- Read a quoted scalar, its first quote being the next character. -/
def readQuoted (quote : Char) (c : Cursor) : Except Trouble (String × Cursor) := do
  let (text, rest) ← readQuotedRuns c.position quote (c.size + 1) [] c.next
  return (String.ofList text, rest)

end LayoutInference.Yaml
