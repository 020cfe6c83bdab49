import ExtensionLowering.Text.Utf8
import ExtensionLowering.Yaml.Scalar
/-!
# Anchors, tags and directives

Names behind `&`, `*`, `!` and `%`.
-/
namespace ExtensionLowering.Yaml

open Reading

def readAnchor : Reading (List Char) := do
  let start ← mark
  skip
  need 1
  let name ← span isWordChar
  let c ← get
  if name.isEmpty || ! (c.endsWord 0 || c.startsWith ("?:,]\x7d%@`".toList.contains ·)) then
    fail start .noAnchorName
  else return name

/-- Reads a tag handle: a word after `!`, with another `!` behind it unless it is no handle after all.
In a directive only a lone `!` may lack the second one. -/
def readHandle (start : Mark) (directive : Bool) : Reading (List Char) := do
  need 1
  if ! (← atChar '!') then fail start .noTagBang
  else
    skip
    need 1
    let name ← span isWordChar
    if ← atChar '!' then
      skip
      return '!' :: name ++ ['!']
    else if directive && ! name.isEmpty then fail start .noTagBang
    else return '!' :: name

def readOctet (start : Mark) (test : Nat → Bool) (otherwise : Problem) : Reading Nat := do
  need 3
  match ← char? 0, (← char? 1).bind hexValue?, (← char? 2).bind hexValue? with
  | some '%', some a, some b =>
    if test (a * 16 + b) then
      skipMany 3
      return a * 16 + b
    else fail start otherwise
  | _, _, _ => fail start .noUriOctet

def readTrailingOctets (start : Mark) : Nat → Reading (List Nat)
  | 0 => return []
  | n + 1 => do
    let octet ← readOctet start isTrailingOctet .uriTrailingOctet
    return octet :: (← readTrailingOctets start n)

def readEscapedChar (start : Mark) : Reading (List Char) := do
  let octet ← readOctet start (octetWidth? · |>.isSome) .uriLeadingOctet
  let octets ← readTrailingOctets start ((octetWidth? octet).getD 1 - 1)
  return (Text.ofBytes (octet :: octets)).toList

def isUriChar (c : Char) : Bool :=
  isWordChar c || ";/?:@&=+$,.!~*'()[]%".toList.contains c

def readUriChars (start : Mark) : Nat → List Char → Reading (List Char)
  | 0, chars => return chars.reverse
  | n + 1, chars => do
    match ← char? 0 with
    | none => return chars.reverse
    | some x =>
      if x = '%' then
        let more ← readEscapedChar start
        need 1
        readUriChars start n (more.reverse ++ chars)
      else if isUriChar x then
        skip
        need 1
        readUriChars start n (x :: chars)
      else return chars.reverse

/-- Reads the rest of a tag, which may be empty only behind a head. -/
def readUri (start : Mark) (head : List Char) : Reading (List Char) := do
  need 1
  let before ← mark
  let chars ← readUriChars start (← left) []
  if head.isEmpty && (← mark).index = before.index then fail start .noTagUri
  else return head.drop 1 ++ chars

def tagParts (start : Mark) : Reading (List Char × List Char) := do
  need 2
  if (← char? 1) = some '<' then
    skipMany 2
    let suffix ← readUri start []
    if ← atChar '>' then
      skip
      return ([], suffix)
    else fail start .noTagEnd
  else
    let handle ← readHandle start false
    if handle.length > 1 && handle.getLast? = some '!' then
      return (handle, ← readUri start [])
    else
      let suffix ← readUri start handle
      return if suffix.isEmpty then ([], handle) else (['!'], suffix)

def readTag : Reading (List Char × List Char) := do
  let start ← mark
  let parts ← tagParts start
  need 1
  if (← get).endsWord 0 then return parts else fail start .noBlankOrBreak

inductive Directive where
  | version (major minor : Nat)
  | tag (handle replacement : List Char)
  deriving Repr, DecidableEq

def readDigits (start : Mark) : Nat → Nat → Reading Nat
  | room, value => do
    match ← char? 0 with
    | none => return value
    | some x =>
      if x.isDigit then
        match room with
        | 0 => fail start .longVersion
        | room + 1 =>
          skip
          need 1
          readDigits start room (value * 10 + (x.toNat - 0x30))
      else return value

def readVersionNumber (start : Mark) : Reading Nat := do
  need 1
  if (← get).startsWith Char.isDigit then readDigits start 2 0 else fail start .noVersion

def readVersion (start : Mark) : Reading Directive := do
  need 1
  skipWhile isBlank
  let major ← readVersionNumber start
  if ! (← atChar '.') then fail start .noVersionSeparator
  else
    skip
    return .version major (← readVersionNumber start)

def readTagDirective (start : Mark) : Reading Directive := do
  need 1
  skipWhile isBlank
  let handle ← readHandle start true
  need 1
  if ! (← get).startsWith isBlank then fail start .noBlank
  else
    skipWhile isBlank
    let replacement ← readUri start []
    need 1
    if (← get).endsWord 0 then return .tag handle replacement else fail start .noBlankOrBreak

def directiveParts (start : Mark) : Reading Directive := do
  skip
  need 1
  let name ← span isWordChar
  if name.isEmpty then fail start .noDirectiveName
  else if ! (← get).endsWord 0 then fail start .directiveNameEnd
  else if name = "YAML".toList then readVersion start
  else if name = "TAG".toList then readTagDirective start
  else fail start .unknownDirective

def readDirective : Reading Directive := do
  let start ← mark
  let directive ← directiveParts start
  closeLine start
  return directive

end ExtensionLowering.Yaml
