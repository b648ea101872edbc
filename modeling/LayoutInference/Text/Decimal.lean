import LayoutInference.Text.Numeral

/-!
# Decimal numbers

Decimal numerals with an optional point and exponent, and the double-precision number nearest to
each. Doubles are exact here: an integer of at most 53 bits times a power of two.
-/

namespace LayoutInference

/-- A decimal number: the digits as one integer, and a power of ten. -/
structure Decimal where
  negative : Bool
  digits : Nat
  exponent : Int
deriving DecidableEq, Repr

/-- A finite double: `significand * 2 ^ exponent`, with a sign. -/
structure Double where
  negative : Bool
  significand : Nat
  exponent : Int
deriving DecidableEq, Repr

namespace Decimal

/-- The exponent of a numeral: nothing, or `e` with an integer. -/
def exponentOf? : List Char → Option Int
  | [] => some 0
  | c :: cs => if c = 'e' ∨ c = 'E' then signed? (digits? 10) cs else none

/-- A numeral without sign: digits, then perhaps a point and digits, then perhaps an exponent. At
least one digit stands before the point or after it. -/
def unsigned? (negative : Bool) (cs : List Char) : Option Decimal := do
  let whole := cs.takeWhile Char.isDigit
  let rest := cs.dropWhile Char.isDigit
  let (fraction, rest) := match rest with
    | '.' :: cs => (cs.takeWhile Char.isDigit, cs.dropWhile Char.isDigit)
    | cs => ([], cs)
  let digits ← digits? 10 (whole ++ fraction)
  let exponent ← exponentOf? rest
  return { negative, digits, exponent := exponent - fraction.length }

/-- Read a decimal numeral. -/
def read? : List Char → Option Decimal
  | '-' :: cs => unsigned? true cs
  | '+' :: cs => unsigned? false cs
  | cs => unsigned? false cs

/-- A quotient rounded to the nearest integer, a half to the even neighbour. -/
def roundDiv (num den : Nat) : Nat :=
  let quotient := num / den
  let twice := 2 * (num % den)
  if twice < den then quotient
  else if den < twice then quotient + 1
  else if quotient % 2 = 0 then quotient
  else quotient + 1

/-- The quotient `num / den` divided by a power of two, as a quotient. -/
def unscale (num den : Nat) (e : Int) : Nat × Nat :=
  if e < 0 then (num * Nat.pow 2 e.natAbs, den) else (num, den * Nat.pow 2 e.natAbs)

/-- The exponent that gives `num / den` a significand of 53 bits, or the least one there is. -/
def binaryExponent (num den : Nat) : Int :=
  let e : Int := num.log2 - den.log2 - 53
  let (n, d) := unscale num den e
  let exponent := if n < d * Nat.pow 2 53 then e else e + 1
  if exponent < -1074 then -1074 else exponent

/-- The double nearest to a quotient, if it is finite. -/
def nearest? (negative : Bool) (num den : Nat) : Option Double :=
  let exponent := binaryExponent num den
  let (n, d) := unscale num den exponent
  let significand := roundDiv n d
  if exponent > 971 ∨ (exponent = 971 ∧ significand ≥ Nat.pow 2 53) then none
  else some { negative, significand, exponent }

/-- The double nearest to a decimal; none if the decimal is out of range. Numbers that are far out of
range on either side are told by their number of digits. -/
def toDouble? (x : Decimal) : Option Double :=
  let magnitude := x.exponent + (toString x.digits).length
  if x.digits = 0 ∨ magnitude < -400 then some ⟨x.negative, 0, 0⟩
  else if magnitude > 400 then none
  else if x.exponent < 0 then nearest? x.negative x.digits (Nat.pow 10 x.exponent.natAbs)
  else nearest? x.negative (x.digits * Nat.pow 10 x.exponent.natAbs) 1

end Decimal

/-- The integer part of a double. -/
def Double.truncate (x : Double) : Int :=
  let whole : Nat :=
    if x.exponent < 0 then x.significand / Nat.pow 2 x.exponent.natAbs
    else x.significand * Nat.pow 2 x.exponent.natAbs
  if x.negative then -(whole : Int) else whole

end LayoutInference
