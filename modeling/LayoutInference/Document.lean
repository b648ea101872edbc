import LayoutInference.Text.Utf8

/-!
# Documents

Nested data to be written out: texts, numbers, truth values, lists and named fields in a fixed order.
`Document.json` writes a document as JSON, indented by two; `Document.yaml`, in a module of its own,
as YAML.
-/

namespace LayoutInference

/-- A document. `noList` is a list that was never made, which JSON tells from an empty one. -/
inductive Document where
  | text (value : String)
  | number (value : Int)
  | truth (value : Bool)
  | noList
  | list (items : List Document)
  | fields (entries : List (String × Document))

/-- Blanks that indent by `n`. -/
def blanks (n : Nat) : String := String.ofList (List.replicate n ' ')

/-- The word for a truth value. -/
def truthText (b : Bool) : String := if b then "true" else "false"

namespace Document

/-- One character inside a JSON text. Characters with a meaning in web pages and the two line
separators are escaped along with control characters. -/
def jsonChar (c : Char) : String :=
  if c = '"' then "\\\""
  else if c = '\\' then "\\\\"
  else if c = '\n' then "\\n"
  else if c = '\r' then "\\r"
  else if c = '\t' then "\\t"
  else if c.toNat = 0x08 then "\\b"
  else if c.toNat = 0x0C then "\\f"
  else if c.toNat < 0x20 ∨ c = '<' ∨ c = '>' ∨ c = '&' ∨ c.toNat = 0x2028 ∨ c.toNat = 0x2029 then
    "\\u" ++ hexDigits 4 c.toNat
  else c.toString

/-- A JSON text. -/
def jsonText (s : String) : String := "\"" ++ String.join (s.toList.map jsonChar) ++ "\""

mutual

/-- A document as JSON, its inner lines indented by more than `indent`. -/
def jsonAt (indent : Nat) : Document → String
  | .text value => jsonText value
  | .number value => toString value
  | .truth value => truthText value
  | .noList => "null"
  | .list [] => "[]"
  | .list (item :: items) =>
    "[\n" ++ blanks (indent + 2) ++ jsonAt (indent + 2) item ++ jsonItems (indent + 2) items ++ "\n"
      ++ blanks indent ++ "]"
  | .fields [] => "\x7b\x7d"
  | .fields ((name, value) :: entries) =>
    "\x7b\n" ++ blanks (indent + 2) ++ jsonText name ++ ": " ++ jsonAt (indent + 2) value
      ++ jsonEntries (indent + 2) entries ++ "\n" ++ blanks indent ++ "\x7d"

/-- The items of a list after the first. -/
def jsonItems (indent : Nat) : List Document → String
  | [] => ""
  | item :: items => ",\n" ++ blanks indent ++ jsonAt indent item ++ jsonItems indent items

/-- The fields after the first. -/
def jsonEntries (indent : Nat) : List (String × Document) → String
  | [] => ""
  | (name, value) :: entries =>
    ",\n" ++ blanks indent ++ jsonText name ++ ": " ++ jsonAt indent value
      ++ jsonEntries indent entries

end

/-- A document as JSON, ending its last line. -/
def json (d : Document) : String := d.jsonAt 0 ++ "\n"

end Document

end LayoutInference
