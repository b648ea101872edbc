import LayoutInference.Text.Utf8
import LayoutInference.Yaml.Token

/-!
# Names, tags and directives

What is written after `&`, `*`, `!` and `%`. A tag is a handle and a name; directives at the head of a
document give the version of the format and the meaning of handles. Tag names are written in the
characters of links, others being given by their octets in hexadecimal.
-/

namespace LayoutInference.Yaml

/-- Read the name of an anchor or alias, its mark being the next character. -/
def readName (c : Cursor) : Except Trouble (String × Cursor) :=
  let (name, rest) := c.next.takeWhile isNameChar
  if !name.isEmpty && (endsWord rest.rest || rest.sees "?:,]\x7d%@\x60".toList.contains) then
    .ok (String.ofList name, rest)
  else .error (rest.trouble c.position .missingName)

/-! ## Tags -/

/-- Whether a character may stand in the name of a tag. -/
def isTagChar (c : Char) : Bool := isNameChar c || ";/?:@&=+$,.!~*'()[]%".toList.contains c

/-- The number of octets of the character that starts with an octet, 0 for none. -/
def octetCount (octet : Nat) : Nat :=
  if octet < 0x80 then 1
  else if 0xC0 ≤ octet ∧ octet < 0xE0 then 2
  else if 0xE0 ≤ octet ∧ octet < 0xF0 then 3
  else if 0xF0 ≤ octet ∧ octet < 0xF8 then 4
  else 0

/-- Read an octet: a percent sign and two hexadecimal digits. -/
def readOctet : List Char → Except Problem Nat
  | '%' :: high :: low :: _ =>
    match digits? 16 [high, low] with
    | some octet => .ok octet
    | none => .error .missingOctet
  | _ => .error .missingOctet

/-- Read the octets of a character after the first one. -/
def readTrailingOctets : (count : Nat) → List Char → Except Problem (List Nat)
  | 0, _ => .ok []
  | count + 1, cs => do
    let octet ← readOctet cs
    if octet < 0x80 ∨ 0xC0 ≤ octet then throw .invalidTrailingOctet
    return octet :: (← readTrailingOctets count (cs.drop 3))

/-- Read the octets of a character. -/
def readOctets (cs : List Char) : Except Problem (List Nat) := do
  let octet ← readOctet cs
  if octetCount octet = 0 then throw .invalidLeadingOctet
  return octet :: (← readTrailingOctets (octetCount octet - 1) (cs.drop 3))

/-- The octets of the tag characters that a text starts with, and how many characters these are. The
first `skip` characters are read already. -/
def readTagOctets : (skip : Nat) → List Char → Except Problem (List UInt8 × Nat)
  | _, [] => .ok ([], 0)
  | skip + 1, _ :: cs => do
    let (octets, length) ← readTagOctets skip cs
    return (octets, length + 1)
  | 0, c :: cs => do
    if !isTagChar c then return ([], 0)
    let octets ← if c = '%' then readOctets (c :: cs) else pure [c.toNat]
    let (more, length) ← readTagOctets (if c = '%' then 3 * octets.length - 1 else 0) cs
    return (octets.map UInt8.ofNat ++ more, length + 1)

/-- Read the name of a tag. -/
def readTagName (start : Position) (c : Cursor) : Except Trouble (String × Cursor) := do
  let (octets, length) ← (readTagOctets 0 c.rest).mapError (c.trouble start)
  return (Glyph.shownText (Glyph.ofBytes octets), c.skip length)

/-- Read the name of a tag, which must not be empty. -/
def readFullTagName (start : Position) (c : Cursor) : Except Trouble (String × Cursor) := do
  let (name, rest) ← readTagName start c
  if name.isEmpty then throw (c.trouble start .missingTagName)
  return (name, rest)

/-- Read an exclamation mark, the name after it and the exclamation mark after that, if there is one. -/
def readHandle (c : Cursor) : String × Cursor :=
  let (name, rest) := c.next.takeWhile isNameChar
  if rest.seesChar '!' then ("!" ++ String.ofList name ++ "!", rest.next)
  else ("!" ++ String.ofList name, rest)

/-- Whether what was read as a handle is one that a name follows. -/
def isNamedHandle (handle : String) : Bool := handle.length > 1 && handle.endsWith "!"

/-- Read a tag without looking at what follows it, its mark being the next character. -/
def readTagParts (c : Cursor) : Except Trouble ((String × String) × Cursor) := do
  let start := c.position
  if c.next.seesChar '<' then
    let (name, rest) ← readFullTagName start c.next.next
    if !rest.seesChar '>' then throw (rest.trouble start .openTag)
    return (("", name), rest.next)
  let (handle, rest) := readHandle c
  if isNamedHandle handle then
    let (name, rest) ← readFullTagName start rest
    return ((handle, name), rest)
  let (more, rest) ← readTagName start rest
  let name := String.ofList (handle.toList.drop 1) ++ more
  return (if name.isEmpty then ("", "!") else ("!", name), rest)

/-- Read a tag, its mark being the next character. -/
def readTag (c : Cursor) : Except Trouble ((String × String) × Cursor) := do
  let (tag, rest) ← readTagParts c
  if !endsWord rest.rest then throw (rest.trouble c.position .missingBlankOrBreak)
  return (tag, rest)

/-! ## Directives -/

/-- Read a number of a version. -/
def readVersionNumber (start : Position) (c : Cursor) : Except Trouble (Nat × Cursor) :=
  let (digits, rest) := c.takeWhile Char.isDigit
  if digits.length > 2 then .error (c.trouble start .longVersion)
  else match digits? 10 digits with
    | some n => .ok (n, rest)
    | none => .error (c.trouble start .missingVersion)

/-- Read the version of the format. -/
def readVersion (start : Position) (c : Cursor) : Except Trouble (Token.Kind × Cursor) := do
  let (major, c) ← readVersionNumber start (c.skipWhile isBlank)
  if !c.seesChar '.' then throw (c.trouble start .missingVersionPart)
  let (minor, c) ← readVersionNumber start c.next
  return (.version major minor, c)

/-- Read a tag handle and what it stands for. -/
def readTagHandle (start : Position) (c : Cursor) : Except Trouble (Token.Kind × Cursor) := do
  let c := c.skipWhile isBlank
  if !c.seesChar '!' then throw (c.trouble start .missingTagMark)
  let (handle, c) := readHandle c
  if handle ≠ "!" ∧ !isNamedHandle handle then throw (c.trouble start .missingTagMark)
  if !c.sees isBlank then throw (c.trouble start .missingBlank)
  let (expansion, c) ← readFullTagName start (c.skipWhile isBlank)
  if !endsWord c.rest then throw (c.trouble start .missingBlankOrBreak)
  return (.tagHandle handle expansion, c)

/-- Read a directive and the rest of its line, its mark being the next character. -/
def readDirective (c : Cursor) : Except Trouble (Token.Kind × Cursor) := do
  let start := c.position
  let (name, c) := c.next.takeWhile isNameChar
  if name.isEmpty then throw (c.trouble start .missingDirective)
  if !endsWord c.rest then throw (c.trouble start .malformedDirective)
  let (kind, c) ←
    if name = "YAML".toList then readVersion start c
    else if name = "TAG".toList then readTagHandle start c
    else throw (c.trouble start .unknownDirective)
  let c := c.skipWhile isBlank
  let c := if c.seesChar '#' then c.skipLine else c
  if !endsLine c.rest then throw (c.trouble start .missingLineEnd)
  return (kind, c.skipBreak)

end LayoutInference.Yaml
