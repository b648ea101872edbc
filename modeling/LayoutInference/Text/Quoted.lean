import LayoutInference.Text.Printable
import LayoutInference.Text.Utf8

/-!
# Quoted text

Text in double quotes as it stands in messages: quotes and backslashes are escaped, printable
characters stand for themselves, and all else is written as an escape.
-/

namespace LayoutInference

/-- One glyph inside double quotes. -/
def Glyph.quoted : Glyph → String
  | .stray b => "\\x" ++ hexDigits 2 b.toNat
  | .char c =>
    if c = '"' then "\\\""
    else if c = '\\' then "\\\\"
    else if isPrintable c then c.toString
    else if c.toNat = 0x07 then "\\a"
    else if c.toNat = 0x08 then "\\b"
    else if c.toNat = 0x0C then "\\f"
    else if c = '\n' then "\\n"
    else if c = '\r' then "\\r"
    else if c = '\t' then "\\t"
    else if c.toNat = 0x0B then "\\v"
    else if c.toNat < 0x80 then "\\x" ++ hexDigits 2 c.toNat
    else if c.toNat < 0x10000 then "\\u" ++ hexDigits 4 c.toNat
    else "\\U" ++ hexDigits 8 c.toNat

/-- Glyphs in double quotes. -/
def quotedGlyphs (glyphs : List Glyph) : String :=
  "\"" ++ String.join (glyphs.map Glyph.quoted) ++ "\""

/-- Text in double quotes. -/
def quoted (text : String) : String := quotedGlyphs (Glyph.ofText text)

/-- Bytes in double quotes, read as text where they are text. -/
def quotedBytes (bytes : List UInt8) : String := quotedGlyphs (Glyph.ofBytes bytes)

end LayoutInference
