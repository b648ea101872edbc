/-!
# Integer numerals

Reading integers written in a base, with or without a sign, and literals that name their base
themselves: `0x`, `0o` and `0b` introduce hexadecimal, octal and binary digits, and a leading zero
alone octal ones.
-/

namespace LayoutInference

/-- The value of a digit, letters standing for ten and above. -/
def digitValue? (c : Char) : Option Nat :=
  if c.isDigit then some (c.toNat - '0'.toNat)
  else if c.isLower then some (c.toNat - 'a'.toNat + 10)
  else if c.isUpper then some (c.toNat - 'A'.toNat + 10)
  else none

/-- The number that digits continue, `value` being what stands before them. -/
def continueDigits? (base : Nat) (value : Nat) : List Char → Option Nat
  | [] => some value
  | c :: cs =>
    match digitValue? c with
    | some d => if d < base then continueDigits? base (base * value + d) cs else none
    | none => none

/-- The number written by digits, of which there is at least one. -/
def digits? (base : Nat) : List Char → Option Nat
  | [] => none
  | cs => continueDigits? base 0 cs

/-- The number of a literal that names its own base. -/
def literal? : List Char → Option Nat
  | [] => none
  | '0' :: mark :: c :: cs =>
    if mark = 'b' ∨ mark = 'B' then digits? 2 (c :: cs)
    else if mark = 'o' ∨ mark = 'O' then digits? 8 (c :: cs)
    else if mark = 'x' ∨ mark = 'X' then digits? 16 (c :: cs)
    else digits? 8 (mark :: c :: cs)
  | '0' :: cs => continueDigits? 8 0 cs
  | cs => digits? 10 cs

/-- The integer of a numeral that may have a sign. -/
def signed? (read : List Char → Option Nat) : List Char → Option Int
  | '-' :: cs => (read cs).map fun n => -(n : Int)
  | '+' :: cs => (read cs).map Int.ofNat
  | cs => (read cs).map Int.ofNat

/-- The least integer of a signed word of 64 bits. -/
def wordMin : Int := -0x8000000000000000

/-- The greatest integer of a signed word of 64 bits. -/
def wordMax : Int := 0x7FFFFFFFFFFFFFFF

/-- The integer if it fits in a signed word. -/
def inWord? (n : Int) : Option Int := if wordMin ≤ n ∧ n ≤ wordMax then some n else none

/-- The number if it fits in an unsigned word. -/
def inUnsignedWord? (n : Nat) : Option Int := if n ≤ 0xFFFFFFFFFFFFFFFF then some n else none

end LayoutInference
