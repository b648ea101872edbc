/-!
# Reading bytes as text

Bytes cut out of a text need not be whole characters. `Glyph.ofBytes` reads a list of bytes as
UTF-8 and keeps each byte that is no part of a character as a stray byte.
-/

namespace LayoutInference

/-- A character, or a byte that is part of none. -/
inductive Glyph where
  | char (c : Char)
  | stray (b : UInt8)
deriving DecidableEq, Repr

/-- Whether a byte continues a character. -/
def isContinuation (b : UInt8) : Bool := 0x80 ≤ b && b ≤ 0xBF

/-- The character that starts with byte `b`, and how many of the bytes after it belong to it. -/
def charAt? (b : UInt8) (rest : List UInt8) : Option (Char × Nat) :=
  let low (x : UInt8) : Nat := x.toNat % 64
  if b < 0x80 then some (Char.ofNat b.toNat, 0)
  else if 0xC2 ≤ b && b ≤ 0xDF then
    match rest with
    | b1 :: _ => if isContinuation b1 then some (Char.ofNat (b.toNat % 32 * 64 + low b1), 1) else none
    | _ => none
  else if 0xE0 ≤ b && b ≤ 0xEF then
    match rest with
    | b1 :: b2 :: _ =>
      let least : UInt8 := if b = 0xE0 then 0xA0 else 0x80
      let greatest : UInt8 := if b = 0xED then 0x9F else 0xBF
      if least ≤ b1 && b1 ≤ greatest && isContinuation b2 then
        some (Char.ofNat ((b.toNat % 16 * 64 + low b1) * 64 + low b2), 2)
      else none
    | _ => none
  else if 0xF0 ≤ b && b ≤ 0xF4 then
    match rest with
    | b1 :: b2 :: b3 :: _ =>
      let least : UInt8 := if b = 0xF0 then 0x90 else 0x80
      let greatest : UInt8 := if b = 0xF4 then 0x8F else 0xBF
      if least ≤ b1 && b1 ≤ greatest && isContinuation b2 && isContinuation b3 then
        some (Char.ofNat (((b.toNat % 8 * 64 + low b1) * 64 + low b2) * 64 + low b3), 3)
      else none
    | _ => none
  else none

namespace Glyph

/-- The glyphs of a list of bytes of which the first `skip` are already read. -/
def ofBytesAfter : (skip : Nat) → List UInt8 → List Glyph
  | _, [] => []
  | skip + 1, _ :: rest => ofBytesAfter skip rest
  | 0, b :: rest =>
    match charAt? b rest with
    | some (c, more) => .char c :: ofBytesAfter more rest
    | none => .stray b :: ofBytesAfter 0 rest

/-- The glyphs of a list of bytes. -/
def ofBytes (bytes : List UInt8) : List Glyph := ofBytesAfter 0 bytes

/-- The glyphs of a text. -/
def ofText (text : String) : List Glyph := text.toList.map .char

end Glyph

/-- The character of a glyph that is one. -/
def Glyph.char? : Glyph → Option Char
  | .char c => some c
  | .stray _ => none

/-- The text of glyphs; the mark for what cannot be shown stands for a stray byte. -/
def Glyph.shownText (glyphs : List Glyph) : String :=
  String.ofList (glyphs.map fun g => g.char?.getD (Char.ofNat 0xFFFD))

/-- The text of a list of bytes, if they are whole characters. -/
def textOfBytes? (bytes : List UInt8) : Option String :=
  ((Glyph.ofBytes bytes).mapM Glyph.char?).map String.ofList

/-- A number as `width` hexadecimal digits, lower case. -/
def hexDigits (width : Nat) (n : Nat) : String :=
  let digits := Nat.toDigits 16 n
  String.ofList (List.replicate (width - digits.length) '0' ++ digits)

end LayoutInference
