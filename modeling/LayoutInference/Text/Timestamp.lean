import LayoutInference.Text.Numeral

/-!
# Timestamps

Recognising dates such as `2001-1-31` and points in time such as `2001-12-14T21:59:43.10Z`. Month,
day and the parts of the time take one or two digits and are checked against their ranges.
-/

namespace LayoutInference.Timestamp

/-- Read a number of one or two digits that lies between `least` and `greatest`. -/
def number? (least greatest : Nat) : List Char → Option (Nat × List Char)
  | [] => none
  | c :: cs => do
    let first ← if c.isDigit then digitValue? c else none
    let (n, rest) := match cs with
      | d :: ds => if d.isDigit then (10 * first + (d.toNat - '0'.toNat), ds) else (first, cs)
      | [] => (first, cs)
    if least ≤ n ∧ n ≤ greatest then some (n, rest) else none

/-- Read a given character. -/
def mark? (mark : Char) : List Char → Option (List Char)
  | [] => none
  | c :: cs => if c = mark then some cs else none

/-- Whether a year has a leap day. -/
def isLeap (year : Nat) : Bool := year % 4 = 0 && (year % 100 ≠ 0 || year % 400 = 0)

/-- The number of days of a month. -/
def daysIn (year month : Nat) : Nat :=
  if month = 2 then (if isLeap year then 29 else 28)
  else if month = 4 ∨ month = 6 ∨ month = 9 ∨ month = 11 then 30
  else 31

/-- Read a date: a year of four digits, a month and a day. -/
def date? (cs : List Char) : Option (List Char) := do
  let digits := cs.takeWhile Char.isDigit
  let year ← if digits.length = 4 then digits? 10 digits else none
  let rest ← mark? '-' (cs.dropWhile Char.isDigit)
  let (month, rest) ← number? 1 12 rest
  let rest ← mark? '-' rest
  let (_, rest) ← number? 1 (daysIn year month) rest
  return rest

/-- Leave out the fraction of a second, if there is one. -/
def afterFraction : List Char → List Char
  | c :: d :: cs =>
    if (c = '.' ∨ c = ',') ∧ d.isDigit then cs.dropWhile Char.isDigit else c :: d :: cs
  | cs => cs

/-- Read hours, minutes and seconds with an optional fraction. -/
def time? (cs : List Char) : Option (List Char) := do
  let (_, rest) ← number? 0 23 cs
  let rest ← mark? ':' rest
  let (_, rest) ← number? 0 59 rest
  let rest ← mark? ':' rest
  let (_, rest) ← number? 0 59 rest
  return afterFraction rest

/-- A number of exactly two digits. -/
def pair? (c d : Char) : Option Nat := if c.isDigit ∧ d.isDigit then digits? 10 [c, d] else none

/-- Whether a text is a time zone: `Z`, or a signed offset. -/
def isZone : List Char → Bool
  | ['Z'] => true
  | [sign, h, h', ':', m, m'] =>
    (sign = '+' || sign = '-') && (pair? h h').any (· ≤ 24) && (pair? m m').any (· ≤ 60)
  | _ => false

/-- Whether a text is a date, or a date and a time with a zone after `T` or without one after
blanks. -/
def matchesTimestamp (cs : List Char) : Bool :=
  match date? cs with
  | none => false
  | some [] => true
  | some (c :: rest) =>
    if c = 'T' ∨ c = 't' then (time? rest).any isZone
    else if c = ' ' then (time? (rest.dropWhile (· = ' '))).any List.isEmpty
    else false

end LayoutInference.Timestamp
