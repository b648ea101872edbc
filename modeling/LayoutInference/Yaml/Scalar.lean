import LayoutInference.Text.Decimal
import LayoutInference.Text.Timestamp
import LayoutInference.Yaml.Trouble

/-!
# Plain YAML scalars

What a scalar without quotes means. Most texts mean themselves; the exceptions are null, truth values,
numbers and timestamps, told by their first character and then by their form. A tag may say what a
scalar has to mean (`taggedMeaning`).
-/

namespace LayoutInference.Yaml

/-- Whether a character separates lines. -/
def isBreak (c : Char) : Bool :=
  c = '\n' || c = '\r' || c.toNat = 0x85 || c.toNat = 0x2028 || c.toNat = 0x2029

/-- Whether a character is a blank. -/
def isBlank (c : Char) : Bool := c = ' ' || c = '\t'

/-- A floating-point value. -/
inductive Real where
  | nan
  | infinite (negative : Bool)
  | finite (value : Double)
deriving DecidableEq, Repr

/-- The meaning of a scalar. -/
inductive Meaning where
  | null
  | boolean (value : Bool)
  | integer (value : Int)
  | real (value : Real)
  | timestamp
  | text
deriving DecidableEq, Repr

/-- The tag of a meaning. -/
def Meaning.tag : Meaning → String
  | .null => "!!null"
  | .boolean _ => "!!bool"
  | .integer _ => "!!int"
  | .real _ => "!!float"
  | .timestamp => "!!timestamp"
  | .text => "!!str"

/-- The words with a meaning of their own. -/
def word? (text : String) : Option Meaning :=
  if text ∈ ["", "~", "null", "Null", "NULL"] then some .null
  else if text ∈ ["true", "True", "TRUE"] then some (.boolean true)
  else if text ∈ ["false", "False", "FALSE"] then some (.boolean false)
  else if text ∈ [".nan", ".NaN", ".NAN"] then some (.real .nan)
  else if text ∈ [".inf", ".Inf", ".INF", "+.inf", "+.Inf", "+.INF"] then
    some (.real (.infinite false))
  else if text ∈ ["-.inf", "-.Inf", "-.INF"] then some (.real (.infinite true))
  else none

/-- Whether older versions of the format read a word as a truth value. -/
def isOldBoolean (text : String) : Bool :=
  text ∈ ["y", "Y", "yes", "Yes", "YES", "on", "On", "ON", "n", "N", "no", "No", "NO", "off", "Off",
    "OFF"]

/-- Binary and octal digits after their mark, with a sign of their own. -/
def markedInteger? : List Char → Option Int
  | '0' :: 'b' :: cs => (signed? (digits? 2) cs).bind inWord? <|> (digits? 2 cs).bind inUnsignedWord?
  | '0' :: 'o' :: cs => (signed? (digits? 8) cs).bind inWord? <|> (digits? 8 cs).bind inUnsignedWord?
  | '-' :: '0' :: 'b' :: cs => ((digits? 2 cs).map fun n => -(n : Int)).bind inWord?
  | '-' :: '0' :: 'o' :: cs => ((digits? 8 cs).map fun n => -(n : Int)).bind inWord?
  | _ => none

/-- An integer that fits in a signed word or, without sign, in an unsigned one. -/
def integer? (cs : List Char) : Option Int :=
  (signed? literal? cs).bind inWord? <|> (literal? cs).bind inUnsignedWord? <|> markedInteger? cs

/-- A floating-point number in range. -/
def real? (cs : List Char) : Option Double := (Decimal.read? cs).bind Decimal.toDouble?

/-- Whether every underscore stands between two digits, `before` telling whether a digit stands before
the text. -/
def underscoresSeparate (before : Bool) : List Char → Bool
  | [] => true
  | ['_'] => false
  | '_' :: c :: cs => before && c.isDigit && underscoresSeparate true cs
  | c :: cs => underscoresSeparate c.isDigit cs

/-- The meaning of a text that starts with a digit or a sign; `dated` tells whether it may be a
timestamp. Underscores between digits are for the reader only. -/
def numberMeaning (dated : Bool) (cs : List Char) : Meaning :=
  if dated && Timestamp.matchesTimestamp cs then .timestamp
  else
    let bare := cs.filter (· ≠ '_')
    match integer? bare with
    | some n => .integer n
    | none =>
      match real? bare with
      | some x => .real (.finite x)
      | none => .text

/-- The meaning of a text that starts with a point. -/
def fractionMeaning (cs : List Char) : Meaning :=
  if underscoresSeparate false cs then
    match real? (cs.filter (· ≠ '_')) with
    | some x => .real (.finite x)
    | none => .text
  else .text

/-- The meaning of a scalar without quotes; `dated` tells whether it may be a timestamp. -/
def meaningWith (dated : Bool) (text : String) : Meaning :=
  match word? text with
  | some m => m
  | none =>
    match text.toList with
    | [] => .null
    | c :: cs =>
      if c.isDigit ∨ c = '+' ∨ c = '-' then numberMeaning dated (c :: cs)
      else if c = '.' then fractionMeaning (c :: cs)
      else .text

/-- The meaning of a scalar without quotes. -/
def meaning (text : String) : Meaning := meaningWith true text

/-- The floating-point number nearest to an integer. -/
def Real.ofInteger (n : Int) : Real :=
  match Decimal.toDouble? ⟨n < 0, n.natAbs, 0⟩ with
  | some x => .finite x
  | none => .infinite (n < 0)

/-- The meaning of a scalar with a tag in its short form. Tags other than those of meanings make it
text. An integer that fits in a signed word is a floating-point number where one is wanted. -/
def taggedMeaning (tag text : String) : Except Problem Meaning :=
  if tag ∉ ["!!null", "!!bool", "!!int", "!!float", "!!timestamp"] then .ok .text
  else
    let found := meaningWith (tag = Meaning.timestamp.tag) text
    let refused := Problem.wrongTag found.tag text tag
    if found.tag = tag then .ok found
    else match found with
      | .integer n =>
        if tag = "!!float" ∧ n ≤ wordMax then .ok (.real (Real.ofInteger n)) else .error refused
      | _ => .error refused

/-- Whether a text is digits and underscores, the fraction of a number in base 60. -/
def isSexagesimalTail : List Char → Bool
  | [] => true
  | '.' :: cs => cs.all fun c => c.isDigit || c = '_'
  | _ => false

/-- Whether a text is the parts of a number in base 60 that follow the first one: at least one group of
a colon and one or two digits below 60, then perhaps a fraction. -/
def isSexagesimalRest : List Char → Bool
  | ':' :: c :: d :: cs =>
    if c.isDigit ∧ d.isDigit then
      c ≤ '5' && (isSexagesimalTail cs || isSexagesimalRest cs)
    else c.isDigit && (isSexagesimalTail (d :: cs) || isSexagesimalRest (d :: cs))
  | [':', c] => c.isDigit
  | _ => false

/-- Whether a text is a number in base 60, such as `12:30:45`. -/
def isSexagesimal (text : String) : Bool :=
  let body := match text.toList with
    | '-' :: cs => cs
    | '+' :: cs => cs
    | cs => cs
  match body with
  | c :: cs => c.isDigit && isSexagesimalRest (cs.dropWhile fun c => c.isDigit || c = '_')
  | [] => false

/-- Whether a text, written without quotes, would be read as itself by this and older versions of the
format. -/
def meansItself (text : String) : Bool :=
  meaning text = .text && !isSexagesimal text && !isOldBoolean text

end LayoutInference.Yaml
