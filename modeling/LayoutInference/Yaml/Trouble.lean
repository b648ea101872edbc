/-!
# Troubles with YAML

Why a text cannot be read as YAML, or a document not as what it is wanted for. A `Problem` is the
cause, a `Trouble` the cause with the line that a message names.
-/

namespace LayoutInference.Yaml

/-- What is wrong with a text or a document. -/
inductive Problem where
  /-- A character that texts do not have. -/
  | controlCharacter
  /-- A character that nothing starts with. -/
  | strayCharacter
  /-- A line of a mapping without a colon. -/
  | missingColon
  /-- A dash where no item can start. -/
  | strayItem
  /-- A question mark where no key can start. -/
  | strayKey
  /-- A colon where no value can start. -/
  | strayValue
  /-- More levels of nesting than are followed. -/
  | tooDeep (limit : Nat)
  /-- An anchor or alias without a name. -/
  | missingName
  /-- A tab in front of a line of a plain scalar. -/
  | tabBeforePlain
  /-- A tab in front of a line of a block scalar. -/
  | tabBeforeBlock
  /-- The start or end of a document inside quotes. -/
  | documentMark
  /-- A quoted scalar without end. -/
  | openQuote
  /-- An escape without meaning. -/
  | unknownEscape
  /-- An escape with fewer hexadecimal digits than it takes. -/
  | missingHexDigit
  /-- An escape for what is no character. -/
  | invalidCharacter
  /-- A block scalar that is indented by nothing. -/
  | zeroIndentation
  /-- A line that does not end where it has to. -/
  | missingLineEnd
  /-- A percent sign without a directive. -/
  | missingDirective
  /-- A directive that is none. -/
  | unknownDirective
  /-- A directive whose name does not end. -/
  | malformedDirective
  /-- A version without number. -/
  | missingVersion
  /-- A version number of more than two digits. -/
  | longVersion
  /-- A version without second part. -/
  | missingVersionPart
  /-- A tag handle that does not start or end as one. -/
  | missingTagMark
  /-- A tag without content. -/
  | missingTagName
  /-- A tag in angle brackets without end. -/
  | openTag
  /-- A percent sign in a tag without an octet. -/
  | missingOctet
  /-- An octet that starts no character. -/
  | invalidLeadingOctet
  /-- An octet that does not continue a character. -/
  | invalidTrailingOctet
  /-- A tag handle that nothing follows. -/
  | missingBlank
  /-- A tag that goes on. -/
  | missingBlankOrBreak
  /-- Two versions for one document. -/
  | repeatedVersion
  /-- A version that is not read. -/
  | foreignVersion
  /-- Two meanings for one tag handle. -/
  | repeatedHandle
  /-- A tag handle without meaning. -/
  | unknownHandle
  /-- Directives without a document. -/
  | missingDocument
  /-- No node where one has to stand. -/
  | missingNode
  /-- No key where one has to stand. -/
  | missingKey
  /-- No item where one has to stand. -/
  | missingItem
  /-- Neither a comma nor the end of a flow collection. -/
  | openFlow (closing : Char)
  /-- An alias of nothing. -/
  | unknownAnchor (name : String)
  /-- A value that is part of itself. -/
  | endlessAnchor (name : String)
  /-- A document that is for the most part made of aliases. -/
  | excessiveAliases
  /-- A scalar that is not what its tag says. -/
  | wrongTag (found text wanted : String)
  /-- Binary data that is not written as such. -/
  | malformedBinary
  /-- Fields merged from something that has none. -/
  | mergeWithoutFields
deriving DecidableEq, Repr

/-- The wording of a problem. -/
def Problem.text : Problem → String
  | .controlCharacter => "control characters are not allowed"
  | .strayCharacter => "found character that cannot start any token"
  | .missingColon => "could not find expected ':'"
  | .strayItem => "block sequence entries are not allowed in this context"
  | .strayKey => "mapping keys are not allowed in this context"
  | .strayValue => "mapping values are not allowed in this context"
  | .tooDeep limit => "exceeded max depth of " ++ toString limit
  | .missingName => "did not find expected alphabetic or numeric character"
  | .tabBeforePlain => "found a tab character that violates indentation"
  | .tabBeforeBlock => "found a tab character where an indentation space is expected"
  | .documentMark => "found unexpected document indicator"
  | .openQuote => "found unexpected end of stream"
  | .unknownEscape => "found unknown escape character"
  | .missingHexDigit => "did not find expected hexdecimal number"
  | .invalidCharacter => "found invalid Unicode character escape code"
  | .zeroIndentation => "found an indentation indicator equal to 0"
  | .missingLineEnd => "did not find expected comment or line break"
  | .missingDirective => "could not find expected directive name"
  | .unknownDirective => "found unknown directive name"
  | .malformedDirective => "found unexpected non-alphabetical character"
  | .missingVersion => "did not find expected version number"
  | .longVersion => "found extremely long version number"
  | .missingVersionPart => "did not find expected digit or '.' character"
  | .missingTagMark => "did not find expected '!'"
  | .missingTagName => "did not find expected tag URI"
  | .openTag => "did not find the expected '>'"
  | .missingOctet => "did not find URI escaped octet"
  | .invalidLeadingOctet => "found an incorrect leading UTF-8 octet"
  | .invalidTrailingOctet => "found an incorrect trailing UTF-8 octet"
  | .missingBlank => "did not find expected whitespace"
  | .missingBlankOrBreak => "did not find expected whitespace or line break"
  | .repeatedVersion => "found duplicate %YAML directive"
  | .foreignVersion => "found incompatible YAML document"
  | .repeatedHandle => "found duplicate %TAG directive"
  | .unknownHandle => "found undefined tag handle"
  | .missingDocument => "did not find expected <document start>"
  | .missingNode => "did not find expected node content"
  | .missingKey => "did not find expected key"
  | .missingItem => "did not find expected '-' indicator"
  | .openFlow closing => "did not find expected ',' or '" ++ closing.toString ++ "'"
  | .unknownAnchor name => "unknown anchor '" ++ name ++ "' referenced"
  | .endlessAnchor name => "anchor '" ++ name ++ "' value contains itself"
  | .excessiveAliases => "document contains excessive aliasing"
  | .wrongTag found text wanted =>
    "cannot decode " ++ found ++ " \x60" ++ text ++ "\x60 as a " ++ wanted
  | .malformedBinary => "!!binary value contains invalid base64 data"
  | .mergeWithoutFields => "map merge requires map or sequence of maps as the value"

/-- A problem and the line to name, 0 for none. -/
structure Trouble where
  problem : Problem
  line : Nat := 0
deriving DecidableEq, Repr

/-- The wording of a trouble. -/
def Trouble.message (t : Trouble) : String :=
  "yaml: " ++ (if t.line = 0 then "" else "line " ++ toString t.line ++ ": ") ++ t.problem.text

end LayoutInference.Yaml
