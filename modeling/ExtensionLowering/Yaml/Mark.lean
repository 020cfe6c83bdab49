/-!
# Places in a document and reports about them

A fault keeps the line to report: that of the construct being read, or, when that starts on the first
line, that of the character at fault, or none when this too is on the first line.
-/
namespace ExtensionLowering.Yaml

/-- A place in a document, counted from zero. -/
structure Mark where
  index : Nat := 0
  line : Nat := 0
  column : Nat := 0
  deriving Repr, DecidableEq, Inhabited

inductive Problem where
  | leadingOctet | incompleteOctets | trailingOctet | octetLength | badCodePoint
  | incompleteUnit | lowSurrogate | incompletePair | noLowSurrogate
  | controlCharacter
  | noTokenStart | noSimpleKeyColon
  | blockEntryNotAllowed | keyNotAllowed | valueNotAllowed
  | noDirectiveName | directiveNameEnd | unknownDirective | noCommentOrBreak
  | noVersionSeparator | longVersion | noVersion
  | noBlank | noBlankOrBreak
  | noAnchorName | noTagEnd | noTagBang | noTagUri | noUriOctet | uriLeadingOctet | uriTrailingOctet
  | zeroIndent | tabInBlockIndent | tabInPlainIndent
  | documentMarkInQuotes | endInQuotes | unknownEscape | noHexDigit | badEscapedCode
  | tooDeep
  | noDocumentStart | duplicateVersion | incompatibleVersion | duplicateTagHandle | undefinedTagHandle
  | noNodeContent | noEntryDash | noKey | noSequenceComma | noMappingComma
  | unknownAnchor (name : String)
  | tagMismatch (found text wanted : String)
  | badBase64
  | mergeOfNoMapping
  | selfContained (name : String)
  | excessiveAliases
  | badKey (shown : String)
  deriving Repr, DecidableEq

namespace Problem

def text : Problem → String
  | leadingOctet => "invalid leading UTF-8 octet"
  | incompleteOctets => "incomplete UTF-8 octet sequence"
  | trailingOctet => "invalid trailing UTF-8 octet"
  | octetLength => "invalid length of a UTF-8 sequence"
  | badCodePoint => "invalid Unicode character"
  | incompleteUnit => "incomplete UTF-16 character"
  | lowSurrogate => "unexpected low surrogate area"
  | incompletePair => "incomplete UTF-16 surrogate pair"
  | noLowSurrogate => "expected low surrogate area"
  | controlCharacter => "control characters are not allowed"
  | noTokenStart => "found character that cannot start any token"
  | noSimpleKeyColon => "could not find expected ':'"
  | blockEntryNotAllowed => "block sequence entries are not allowed in this context"
  | keyNotAllowed => "mapping keys are not allowed in this context"
  | valueNotAllowed => "mapping values are not allowed in this context"
  | noDirectiveName => "could not find expected directive name"
  | directiveNameEnd => "found unexpected non-alphabetical character"
  | unknownDirective => "found unknown directive name"
  | noCommentOrBreak => "did not find expected comment or line break"
  | noVersionSeparator => "did not find expected digit or '.' character"
  | longVersion => "found extremely long version number"
  | noVersion => "did not find expected version number"
  | noBlank => "did not find expected whitespace"
  | noBlankOrBreak => "did not find expected whitespace or line break"
  | noAnchorName => "did not find expected alphabetic or numeric character"
  | noTagEnd => "did not find the expected '>'"
  | noTagBang => "did not find expected '!'"
  | noTagUri => "did not find expected tag URI"
  | noUriOctet => "did not find URI escaped octet"
  | uriLeadingOctet => "found an incorrect leading UTF-8 octet"
  | uriTrailingOctet => "found an incorrect trailing UTF-8 octet"
  | zeroIndent => "found an indentation indicator equal to 0"
  | tabInBlockIndent => "found a tab character where an indentation space is expected"
  | tabInPlainIndent => "found a tab character that violates indentation"
  | documentMarkInQuotes => "found unexpected document indicator"
  | endInQuotes => "found unexpected end of stream"
  | unknownEscape => "found unknown escape character"
  | noHexDigit => "did not find expected hexdecimal number"
  | badEscapedCode => "found invalid Unicode character escape code"
  | tooDeep => "exceeded max depth of 10000"
  | noDocumentStart => "did not find expected <document start>"
  | duplicateVersion => "found duplicate %YAML directive"
  | incompatibleVersion => "found incompatible YAML document"
  | duplicateTagHandle => "found duplicate %TAG directive"
  | undefinedTagHandle => "found undefined tag handle"
  | noNodeContent => "did not find expected node content"
  | noEntryDash => "did not find expected '-' indicator"
  | noKey => "did not find expected key"
  | noSequenceComma => "did not find expected ',' or ']'"
  | noMappingComma => "did not find expected ',' or '\x7d'"
  | unknownAnchor name => "unknown anchor '" ++ name ++ "' referenced"
  | tagMismatch found text wanted =>
    "cannot decode " ++ found ++ " `" ++ text ++ "` as a " ++ wanted
  | badBase64 => "!!binary value contains invalid base64 data"
  | mergeOfNoMapping => "map merge requires map or sequence of maps as the value"
  | selfContained name => "anchor '" ++ name ++ "' value contains itself"
  | excessiveAliases => "document contains excessive aliasing"
  | badKey shown => "invalid map key: " ++ shown

end Problem

structure Fault where
  line : Option Nat := none
  problem : Problem
  deriving Repr, DecidableEq

namespace Fault

/-- The line to report, which is the first that is not the document's first. -/
def reportedLine (shift : Nat) (context here : Mark) : Option Nat :=
  if context.line ≠ 0 then some (context.line + shift)
  else if here.line ≠ 0 then some (here.line + shift)
  else none

/-- A fault of the characters: lines are reported as an editor counts them. -/
def inText (context here : Mark) (problem : Problem) : Fault :=
  ⟨reportedLine 1 context here, problem⟩

/-- A fault of the structure: the lines before the place are reported. -/
def inStructure (context here : Mark) (problem : Problem) : Fault :=
  ⟨reportedLine 0 context here, problem⟩

def ofProblem (problem : Problem) : Fault :=
  ⟨none, problem⟩

def message (f : Fault) : String :=
  match f.line with
  | some n => "yaml: line " ++ toString n ++ ": " ++ f.problem.text
  | none => "yaml: " ++ f.problem.text

end Fault

def isBreak (c : Char) : Bool :=
  c = '\n' || c = '\r' || c.toNat = 0x85 || c.toNat = 0x2028 || c.toNat = 0x2029

def isBlank (c : Char) : Bool :=
  c = ' ' || c = '\t'

def isWordChar (c : Char) : Bool :=
  c.isAlphanum || c = '_' || c = '-'

def breakText (c : Char) : Char :=
  if c.toNat = 0x2028 ∨ c.toNat = 0x2029 then c else '\n'

end ExtensionLowering.Yaml
