import LayoutInference.Script

/-!
# Source files

A source file is a name and the bytes of its text. Spans point into the bytes from 1, so a span may
cut a character in two; `slice` therefore answers bytes, not text.
-/

namespace LayoutInference

/-- A source file. -/
structure Source where
  file : String
  bytes : List UInt8

/-- A place in a source file; line 0 stands for no place. -/
structure Position where
  file : String := ""
  line : Nat := 0
  column : Nat := 0
deriving DecidableEq, Repr

namespace Source

/-- The source file with the given name and text. -/
def ofText (file : String) (text : String) : Source := ⟨file, text.toUTF8.toList⟩

/-- The offsets at which a new line starts, in order, `offset` being that of the first byte. A line
ends with a line feed, a carriage return, both together, or one of the separators U+2028 and
U+2029. -/
def lineStarts (offset : Nat) : List UInt8 → List Nat
  | [] => []
  | 0x0D :: 0x0A :: rest => (offset + 2) :: lineStarts (offset + 2) rest
  | 0xE2 :: 0x80 :: 0xA8 :: rest => (offset + 3) :: lineStarts (offset + 3) rest
  | 0xE2 :: 0x80 :: 0xA9 :: rest => (offset + 3) :: lineStarts (offset + 3) rest
  | b :: rest =>
    if b = 0x0A ∨ b = 0x0D then (offset + 1) :: lineStarts (offset + 1) rest
    else lineStarts (offset + 1) rest

/-- The place of a 1-based offset. Lines and columns count from 1, columns in bytes; offset 0 has
no place. This is how the parser that hands out the offsets counts: its lines end where lines of a script
do (`lineStarts`), and it never looks at characters when it counts columns. -/
def position (source : Source) (start : Nat) : Position :=
  if start = 0 then {}
  else
    let offset := start - 1
    let before := (lineStarts 0 source.bytes).filter (· ≤ offset)
    { file := source.file
      line := before.length + 1
      column := offset - before.getLastD 0 + 1 }

/-- The bytes of a span; none if it is empty or reaches outside the source. -/
def slice (source : Source) (span : Span) : List UInt8 :=
  if span.start = 0 ∨ span.stop > source.bytes.length + 1 ∨ span.stop ≤ span.start then []
  else (source.bytes.drop (span.start - 1)).take (span.stop - span.start)

end Source

end LayoutInference
