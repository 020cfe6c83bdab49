import ExtensionLowering.Yaml.Cursor
/-!
# The text of scalars

Plain, quoted and block scalars. A line break inside plain and quoted scalars is folded: one break
becomes a space, and of several the first is dropped. Texts being read are kept in reverse.
-/
namespace ExtensionLowering.Yaml

open Reading

structure Gap where
  blanks : List Char := []
  /-- Has a line ended, so that blanks no longer count? -/
  broken : Bool := false
  firstBreak : List Char := []
  breaks : List Char := []
  deriving Repr, DecidableEq

namespace Gap

def text (g : Gap) : List Char :=
  if g.broken then
    if g.firstBreak.head? = some '\n' then (if g.breaks.isEmpty then [' '] else g.breaks)
    else g.firstBreak ++ g.breaks
  else g.blanks

def addBlank (g : Gap) (c : Char) : Gap :=
  if g.broken then g else { g with blanks := g.blanks ++ [c] }

def addBreak (g : Gap) (c : Char) : Gap :=
  if g.broken then { g with breaks := g.breaks ++ [breakText c] }
  else { g with blanks := [], broken := true, firstBreak := [breakText c] }

/-- Reads a gap inside a scalar that started at a place. A tab that stands left of column `indent`
after a line break is refused. -/
def read (start : Mark) (indent : Int) : Nat → Gap → Reading Gap
  | 0, g => return g
  | n + 1, g => do
    let c ← get
    match c.rest.head? with
    | none => return g
    | some x =>
      if isBlank x then
        if g.broken && x = '\t' && (c.mark.column : Int) < indent then
          fail start .tabInPlainIndent
        else
          skip
          need 1
          read start indent n (g.addBlank x)
      else if isBreak x then
        need 2
        skipLine
        need 1
        read start indent n (g.addBreak x)
      else return g

end Gap

/-- Does a plain scalar end before a character with that character behind it? -/
def endsPlain (flow : Bool) (c : Char) (next : Option Char) : Bool :=
  (c = ':' && next.all (fun x => isBlank x || isBreak x)) ||
    (flow && (c = ',' || c = '?' || c = '[' || c = ']' || c = '\x7b' || c = '\x7d'))

def plainWord (flow : Bool) : Nat → List Char → Reading (List Char)
  | 0, text => return text
  | n + 1, text => do
    match (← get).rest with
    | [] => return text
    | x :: more =>
      if isBlank x || isBreak x || endsPlain flow x more.head? then return text
      else
        skip
        need 2
        plainWord flow n (x :: text)

def plainWords (flow : Bool) (indent : Int) (start : Mark) :
    Nat → List Char → Gap → Reading (List Char × Gap)
  | 0, text, gap => return (text, gap)
  | n + 1, text, gap => do
    need 4
    let c ← get
    if c.atDocumentBoundary || c.atChar 0 '#' then return (text, gap)
    else
      let word ← plainWord flow (← left) []
      let (text, gap) := if word.isEmpty then (text, gap) else (word ++ gap.text.reverse ++ text, {})
      if (← get).startsWith (fun x => isBlank x || isBreak x) then
        need 1
        let gap ← Gap.read start indent (← left) gap
        if ! flow && ((← mark).column : Int) < indent then return (text, gap)
        else plainWords flow indent start n text gap
      else return (text, gap)

/-- Reads a plain scalar inside a block of some indentation. Tells whether a line break follows it. -/
def readPlain (flow : Bool) (indent : Int) : Reading (List Char × Bool) := do
  let (text, gap) ← plainWords flow (indent + 1) (← mark) ((← left) + 1) [] {}
  return (text.reverse, gap.broken)

def hexValue? (c : Char) : Option Nat :=
  if c.isDigit then some (c.toNat - 0x30)
  else if 'a' ≤ c ∧ c ≤ 'f' then some (c.toNat - 0x61 + 10)
  else if 'A' ≤ c ∧ c ≤ 'F' then some (c.toNat - 0x41 + 10)
  else none

inductive Escape where
  | char (c : Char)
  | code (digits : Nat)

def escape? : Char → Option Escape
  | '0' => some (.char '\x00')
  | 'a' => some (.char '\x07')
  | 'b' => some (.char '\x08')
  | 't' => some (.char '\t')
  | '\t' => some (.char '\t')
  | 'n' => some (.char '\n')
  | 'v' => some (.char '\x0b')
  | 'f' => some (.char '\x0c')
  | 'r' => some (.char '\r')
  | 'e' => some (.char '\x1b')
  | ' ' => some (.char ' ')
  | '"' => some (.char '"')
  | '\'' => some (.char '\'')
  | '\\' => some (.char '\\')
  | 'N' => some (.char '\u0085')
  | '_' => some (.char '\u00a0')
  | 'L' => some (.char '\u2028')
  | 'P' => some (.char '\u2029')
  | 'x' => some (.code 2)
  | 'u' => some (.code 4)
  | 'U' => some (.code 8)
  | _ => none

def escapedCode (start : Mark) (digits : Nat) : Reading Char := do
  need digits
  let ds := (← get).rest.take digits
  match ds.mapM hexValue? with
  | none => fail start .noHexDigit
  | some values =>
    let code := values.foldl (fun n d => n * 16 + d) 0
    if values.length < digits then fail start .noHexDigit
    else if (0xd800 ≤ code ∧ code ≤ 0xdfff) ∨ 0x10ffff < code then fail start .badEscapedCode
    else
      skipMany digits
      return Char.ofNat code

/-- Reads what a backslash and the character behind it stand for; nothing when that is a line break. -/
def escapeSequence (start : Mark) : Reading (Option Char) := do
  match ← char? 1 with
  | none => fail start .unknownEscape
  | some y =>
    if isBreak y then
      need 3
      skip
      skipLine
      return none
    else
      match escape? y with
      | none => fail start .unknownEscape
      | some (.char z) =>
        skipMany 2
        return some z
      | some (.code digits) =>
        skipMany 2
        some <$> escapedCode start digits

/-- Reads the characters of a quoted scalar in front of the text, up to a blank, a line break or the
closing quote. Tells whether an escaped line break ended them. -/
def quotedWord (single : Bool) (start : Mark) : Nat → List Char → Reading (List Char × Bool)
  | 0, text => return (text, false)
  | n + 1, text => do
    match (← get).rest with
    | [] => return (text, false)
    | x :: more =>
      if isBlank x || isBreak x then return (text, false)
      else if single && x = '\'' then
        if more.head? = some '\'' then
          skipMany 2
          need 2
          quotedWord single start n ('\'' :: text)
        else return (text, false)
      else if ! single && x = '"' then return (text, false)
      else if ! single && x = '\\' then
        match ← escapeSequence start with
        | none => return (text, true)
        | some z =>
          need 2
          quotedWord single start n (z :: text)
      else
        skip
        need 2
        quotedWord single start n (x :: text)

def quotedWords (single : Bool) (start : Mark) : Nat → List Char → Reading (List Char)
  | 0, text => return text
  | n + 1, text => do
    need 4
    let c ← get
    if c.atDocumentBoundary then fail start .documentMarkInQuotes
    else if c.rest.isEmpty then fail start .endInQuotes
    else
      let (text, broken) ← quotedWord single start (← left) text
      need 1
      if ← atChar (if single then '\'' else '"') then
        skip
        return text
      else
        let gap ← Gap.read start 0 (← left) { broken }
        quotedWords single start n (gap.text.reverse ++ text)

def readQuoted (single : Bool) : Reading (List Char) := do
  let start ← mark
  let fuel ← left
  skip
  List.reverse <$> quotedWords single start fuel []

inductive Chomping where
  | strip | clip | keep
  deriving Repr, DecidableEq

def chomping? : Option Char → Option Chomping
  | some '+' => some .keep
  | some '-' => some .strip
  | _ => none

def indentIndicator? (start : Mark) : Reading (Option Nat) := do
  match ← char? 0 with
  | some d =>
    if d.isDigit then
      if d = '0' then fail start .zeroIndent
      else
        skip
        return some (d.toNat - 0x30)
    else return none
  | none => return none

/-- Reads the indicators behind the sign of a block scalar, in either order. -/
def blockIndicators (start : Mark) : Reading (Chomping × Nat) := do
  need 1
  match chomping? (← char? 0) with
  | some chomp =>
    skip
    need 1
    return (chomp, (← indentIndicator? start).getD 0)
  | none =>
    match ← indentIndicator? start with
    | none => return (.clip, 0)
    | some increment =>
      need 1
      match chomping? (← char? 0) with
      | some chomp =>
        skip
        return (chomp, increment)
      | none => return (.clip, increment)

/-- Moves over the spaces before a line of a block scalar. An indentation of zero is not known yet. -/
def blockIndent (indent : Nat) : Nat → Reading Unit
  | 0 => return
  | n + 1 => do
    let c ← get
    if (indent = 0 || c.mark.column < indent) && c.atChar 0 ' ' then
      skip
      need 1
      blockIndent indent n

/-- Reads the line breaks and indentation before a line of a block scalar. Gives the breaks and the
greatest column reached. -/
def blockBreaks (start : Mark) (indent : Nat) : Nat → List Char → Nat → Reading (List Char × Nat)
  | 0, breaks, widest => return (breaks.reverse, widest)
  | n + 1, breaks, widest => do
    need 1
    blockIndent indent (← left)
    let c ← get
    let widest := max widest c.mark.column
    match c.rest.head? with
    | none => return (breaks.reverse, widest)
    | some x =>
      if (indent = 0 || c.mark.column < indent) && x = '\t' then fail start .tabInBlockIndent
      else if isBreak x then
        need 2
        skipLine
        blockBreaks start indent n (breakText x :: breaks) widest
      else return (breaks.reverse, widest)

/-- What the lines of a block scalar give: the text, the break that ended the last line and the
breaks behind it. -/
structure BlockText where
  text : List Char := []
  lineBreak : List Char := []
  breaks : List Char := []

def blockLines (literal : Bool) (start : Mark) (indent : Nat) :
    Nat → Bool → BlockText → Reading BlockText
  | 0, _, b => return b
  | n + 1, indented, b => do
    let c ← get
    if c.mark.column ≠ indent ∨ c.rest.isEmpty then return b
    else
      let blank := c.startsWith isBlank
      let folds := ! literal && ! indented && ! blank && b.lineBreak.head? = some '\n'
      let joint := if folds then (if b.breaks.isEmpty then [' '] else []) else b.lineBreak
      let line ← span (! isBreak ·)
      need 2
      let lineBreak := ((← char? 0).map breakText).toList
      if ! lineBreak.isEmpty then skipLine
      let (breaks, _) ← blockBreaks start indent ((← left) + 1) [] 0
      let text := line.reverse ++ b.breaks.reverse ++ joint.reverse ++ b.text
      blockLines literal start indent n blank { text, lineBreak, breaks }

/-- Moves over blanks and a comment to the end of the line, where only these may stand, and over the
line break. -/
def closeLine (start : Mark) : Reading Unit := do
  need 1
  skipWhile isBlank
  if ← atChar '#' then skipToBreak
  if ! (← get).endsLine 0 then fail start .noCommentOrBreak
  else skipBreak

def readBlock (literal : Bool) (outer : Int) : Reading (List Char) := do
  let start ← mark
  skip
  let (chomp, increment) ← blockIndicators start
  closeLine start
  let given := if increment = 0 then 0 else (max outer 0).toNat + increment
  let (breaks, widest) ← blockBreaks start given ((← left) + 1) [] 0
  let indent := if given = 0 then max (max widest (outer + 1).toNat) 1 else given
  need 1
  let b ← blockLines literal start indent (← left) false { breaks }
  let tail := match chomp with
    | .strip => []
    | .clip => b.lineBreak
    | .keep => b.lineBreak ++ b.breaks
  return b.text.reverse ++ tail

end ExtensionLowering.Yaml
