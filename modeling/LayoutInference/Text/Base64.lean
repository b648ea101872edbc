/-!
# Base 64

Bytes written in groups of four characters that stand for three bytes. A group that stands for fewer
ends in equals signs and is the last one; line breaks are passed over.
-/

namespace LayoutInference

/-- The value of a digit in base 64. -/
def sextet? (c : Char) : Option Nat :=
  if c.isUpper then some (c.toNat - 'A'.toNat)
  else if c.isLower then some (c.toNat - 'a'.toNat + 26)
  else if c.isDigit then some (c.toNat - '0'.toNat + 52)
  else if c = '+' then some 62
  else if c = '/' then some 63
  else none

/-- The bytes of a text in base 64 without line breaks. -/
def base64Groups? : List Char → Option (List UInt8)
  | [] => some []
  | [a, b, '=', '='] => do
    let n := 64 * (← sextet? a) + (← sextet? b)
    return [UInt8.ofNat (n / 16)]
  | [a, b, c, '='] => do
    let n := 4096 * (← sextet? a) + 64 * (← sextet? b) + (← sextet? c)
    return [UInt8.ofNat (n / 1024), UInt8.ofNat (n / 4)]
  | a :: b :: c :: d :: rest => do
    let n := 262144 * (← sextet? a) + 4096 * (← sextet? b) + 64 * (← sextet? c) + (← sextet? d)
    return UInt8.ofNat (n / 65536) :: UInt8.ofNat (n / 256) :: UInt8.ofNat n
      :: (← base64Groups? rest)
  | _ => none

/-- The bytes of a text in base 64. -/
def base64? (text : String) : Option (List UInt8) :=
  base64Groups? (text.toList.filter fun c => c ≠ '\n' ∧ c ≠ '\r')

end LayoutInference
