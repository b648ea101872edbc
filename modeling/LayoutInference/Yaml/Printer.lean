import LayoutInference.Document
import LayoutInference.Yaml.Scalar

/-!
# Writing YAML

Documents in block style: fields and items each on lines of their own, items indented by two under
their field. A text is written plain where that reads back as the same text, else in the first of the
other styles that can hold it: a literal block for text of several lines, single quotes, double
quotes.

`Traits` says what stands in a text; the styles that are possible follow from it (`Traits.plain`,
`Traits.single`, `Traits.literal`).
-/

namespace LayoutInference.Yaml

/-- Whether a character may stand unescaped. -/
def isShown (c : Char) : Bool :=
  c = '\n' || (0x20 ≤ c.toNat && c.toNat ≤ 0x7E)
    || (0xA0 ≤ c.toNat && c.toNat ≤ 0xFFFD && c.toNat ≠ 0xFEFF)

/-- What stands in a text, as far as it decides how the text is written. -/
structure Traits where
  /-- A character that would be read as structure. -/
  indicator : Bool := false
  lines : Bool := false
  tab : Bool := false
  /-- A character that has to be escaped. -/
  special : Bool := false
  /-- A blank or line break at either end. -/
  edge : Bool := false
  trailingSpace : Bool := false
  spaceBeforeBreak : Bool := false
  spaceAfterBreak : Bool := false

/-- Whether the first character of a text would be read as structure. -/
def opensStructure : List Char → Bool
  | [] => false
  | c :: cs =>
    "#,[]\x7b\x7d&*!|>'\"%@".toList.contains c || c.toNat = 0x60
      || (['?', ':', '-'].contains c && cs.head?.all isBlank)

/-- Whether a later character would be read as structure: a colon before a blank or the end, or a
number sign after a blank or line break. `before` is the character in front. -/
def holdsStructure (before : Char) : List Char → Bool
  | [] => false
  | c :: cs =>
    (c = ':' && cs.head?.all isBlank)
      || (c = '#' && (isBlank before || isBreak before))
      || holdsStructure c cs

/-- Whether a character of the first kind stands directly before one of the second. -/
def adjacent (first second : Char → Bool) : List Char → Bool
  | c :: d :: cs => (first c && second d) || adjacent first second (d :: cs)
  | _ => false

/-- The traits of a text. -/
def Traits.of (cs : List Char) : Traits where
  indicator := opensStructure cs || cs.take 3 = ['-', '-', '-'] || cs.take 3 = ['.', '.', '.']
    || (match cs with
      | [] => false
      | c :: cs => holdsStructure c cs)
  lines := cs.any isBreak
  tab := cs.contains '\t'
  special := cs.any fun c => c ≠ '\t' && !isShown c
  edge := (cs.head?.toList ++ cs.getLast?.toList).any fun c => c = ' ' || isBreak c
  trailingSpace := cs.getLast? = some ' '
  spaceBeforeBreak := adjacent (· = ' ') isBreak cs
  spaceAfterBreak := adjacent isBreak (· = ' ') cs

namespace Traits

/-- Whether the text can stand in single quotes. -/
def single (t : Traits) : Bool :=
  !t.spaceAfterBreak && !t.spaceBeforeBreak && !t.tab && !t.special

/-- Whether the text can stand without quotes. -/
def plain (t : Traits) : Bool := t.single && !t.edge && !t.lines && !t.indicator

/-- Whether the text can stand as a literal block. -/
def literal (t : Traits) : Bool := !t.trailingSpace && !t.spaceBeforeBreak && !t.special

end Traits

/-- The styles of a text. -/
inductive Style where
  | plain
  | single
  | double
  | literal
deriving DecidableEq, Repr

/-- The style in which a text is written. -/
def styleOf (text : String) : Style :=
  let traits := Traits.of text.toList
  if text.toList.contains '\n' then (if traits.literal then .literal else .double)
  else if !meansItself text then .double
  else if traits.plain then .plain
  else if traits.single then .single
  else .double

/-- A number as `width` hexadecimal digits, upper case. -/
def upperHex (width n : Nat) : String := String.ofList ((hexDigits width n).toList.map Char.toUpper)

/-- The escape of a character. -/
def escaped (c : Char) : String :=
  let n := c.toNat
  if n = 0x00 then "\\0"
  else if n = 0x07 then "\\a"
  else if n = 0x08 then "\\b"
  else if n = 0x09 then "\\t"
  else if n = 0x0A then "\\n"
  else if n = 0x0B then "\\v"
  else if n = 0x0C then "\\f"
  else if n = 0x0D then "\\r"
  else if n = 0x1B then "\\e"
  else if c = '"' then "\\\""
  else if c = '\\' then "\\\\"
  else if n = 0x85 then "\\N"
  else if n = 0xA0 then "\\_"
  else if n = 0x2028 then "\\L"
  else if n = 0x2029 then "\\P"
  else if n ≤ 0xFF then "\\x" ++ upperHex 2 n
  else if n ≤ 0xFFFF then "\\u" ++ upperHex 4 n
  else "\\U" ++ upperHex 8 n

/-- The characters of a text in double quotes. Those that could be misread are escaped, and in a text
that starts with a byte order mark all of them. -/
def doubleChars (cs : List Char) : String :=
  let isMarked := cs.head?.any (·.toNat = 0xFEFF)
  let isPlain (c : Char) : Bool := !isMarked && isShown c && !isBreak c && c ≠ '"' && c ≠ '\\'
  String.join (cs.map fun c => if isPlain c then c.toString else escaped c)

/-- The characters of a text in single quotes: quotes are doubled, and what follows a line break is
indented. -/
def singleChars (indent : Nat) (afterBreak : Bool) : List Char → String
  | [] => ""
  | c :: cs =>
    if isBreak c then c.toString ++ singleChars indent true cs
    else (if afterBreak then blanks indent else "") ++ (if c = '\'' then "''" else c.toString)
      ++ singleChars indent false cs

/-- The lines of a literal block: each line is indented, empty ones are not. -/
def literalLines (indent : Nat) (afterBreak : Bool) : List Char → String
  | [] => ""
  | c :: cs =>
    if isBreak c then c.toString ++ literalLines indent true cs
    else (if afterBreak then blanks indent else "") ++ c.toString ++ literalLines indent false cs

/-- What stands after the bar of a literal block: the indentation if the text does not show it, and
what becomes of the line breaks at its end. -/
def literalHints (cs : List Char) : String :=
  (if cs.head?.any (fun c => c = ' ' || isBreak c) then "2" else "")
    ++ match cs.reverse with
      | [] => "-"
      | [c] => if isBreak c then "+" else "-"
      | c :: d :: _ => if !isBreak c then "-" else if isBreak d then "+" else ""

/-- A literal block from the bar on. A line break that starts the text ends the line of the bar. -/
def literalBlock (indent : Nat) (cs : List Char) : String :=
  "|" ++ literalHints cs ++ (if cs.head?.any isBreak then "" else "\n") ++ literalLines indent true cs

/-- A text with the end of its line, its further lines indented by `indent`. A literal block that ends
in a line break ends its line itself. -/
def textLine (indent : Nat) (text : String) : String :=
  let cs := text.toList
  match styleOf text with
  | .plain => text ++ "\n"
  | .single => "'" ++ singleChars indent false cs ++ "'\n"
  | .double => "\"" ++ doubleChars cs ++ "\"\n"
  | .literal => literalBlock indent cs ++ (if cs.getLast?.any isBreak then "" else "\n")

end LayoutInference.Yaml

namespace LayoutInference.Document

open Yaml

mutual

/-- What follows the name of a field, in a mapping indented by `indent`. -/
def yamlValue (indent : Nat) : Document → String
  | .text value => " " ++ textLine (indent + 2) value
  | .number value => " " ++ toString value ++ "\n"
  | .truth value => " " ++ truthText value ++ "\n"
  | .noList => " []\n"
  | .list [] => " []\n"
  | .list (item :: items) => "\n" ++ yamlItems (indent + 2) (item :: items)
  | .fields [] => " \x7b\x7d\n"
  | .fields (entry :: entries) =>
    "\n" ++ blanks (indent + 2) ++ yamlEntries (indent + 2) (entry :: entries)

/-- What follows the dash of an item, in a list indented by `indent`. -/
def yamlItem (indent : Nat) : Document → String
  | .text value => textLine (indent + 2) value
  | .number value => toString value ++ "\n"
  | .truth value => truthText value ++ "\n"
  | .noList => "[]\n"
  | .list [] => "[]\n"
  | .list (item :: items) => "- " ++ yamlItem (indent + 2) item ++ yamlItems (indent + 2) items
  | .fields [] => "\x7b\x7d\n"
  | .fields (entry :: entries) => yamlEntries (indent + 2) (entry :: entries)

/-- The items of a list, each on lines of its own. -/
def yamlItems (indent : Nat) : List Document → String
  | [] => ""
  | item :: items => blanks indent ++ "- " ++ yamlItem indent item ++ yamlItems indent items

/-- The fields of a mapping, the first of which is already indented. -/
def yamlEntries (indent : Nat) : List (String × Document) → String
  | [] => ""
  | (name, value) :: entries =>
    name ++ ":" ++ yamlValue indent value
      ++ (if entries.isEmpty then "" else blanks indent) ++ yamlEntries indent entries

end

/-- A document with fields as YAML. Reports are read by other programs and compared as texts, so the
writer that is followed here is followed to the byte: block style throughout, items indented under their
field, no folding of long lines, empty lists and mappings in brackets. Every document can be written. -/
def yaml : Document → String
  | .fields entries => yamlEntries 0 entries
  | other => yamlItem 0 other

end LayoutInference.Document
