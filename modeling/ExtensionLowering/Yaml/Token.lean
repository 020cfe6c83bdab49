import ExtensionLowering.Yaml.Comment
import ExtensionLowering.Yaml.Tag
/-!
# Tokens of a document

A stream gives the tokens of a document one after the other. Block structure is found from the
indentation, and a scalar becomes a key only when the colon behind it is seen, so tokens wait in a
queue: at least two tokens behind the first one are read before the first is given out.
-/
namespace ExtensionLowering.Yaml

inductive TokenKind where
  | streamStart | streamEnd
  | directive (d : Directive)
  | documentStart | documentEnd
  | blockSequenceStart | blockMappingStart | blockEnd
  | flowSequenceStart | flowSequenceEnd | flowMappingStart | flowMappingEnd
  | blockEntry | flowEntry | key | value
  | reference (name : String)
  | anchor (name : String)
  | tag (handle suffix : String)
  | scalar (text : String) (plain : Bool)
  deriving Repr, DecidableEq

structure Token where
  kind : TokenKind
  mark : Mark
  deriving Repr, DecidableEq

structure SimpleKey where
  possible : Bool := false
  /-- Must the token be a key, because of where it stands? -/
  required : Bool := false
  /-- The number of the token, counted over the whole document. -/
  number : Nat := 0
  mark : Mark := {}
  deriving Repr

structure TokenStream where
  cursor : Cursor
  started : Bool := false
  /-- The key candidate of every open collection written with brackets, and of the block context. -/
  keys : List SimpleKey := []
  /-- Candidates by token number: how many collections were open around them. -/
  candidates : List (Nat × Nat) := []
  keyAllowed : Bool := true
  indents : List Int := []
  queue : List Token := []
  given : Nat := 0
  deriving Repr

abbrev Scan := StateT TokenStream (Except Fault)

namespace TokenStream

def ofPortions (ps : List Portion) : TokenStream :=
  { cursor := Cursor.ofPortions ps }

def inFlow (s : TokenStream) : Bool :=
  s.keys.length > 1

/-- The indentation of the innermost block, or -1 outside all blocks. -/
def indent (s : TokenStream) : Int :=
  s.indents.headD (-1)

def nextNumber (s : TokenStream) : Nat :=
  s.given + s.queue.length

def push (s : TokenStream) (kind : TokenKind) (mark : Mark) : TokenStream :=
  { s with queue := s.queue ++ [⟨kind, mark⟩] }

def insert (s : TokenStream) (number : Option Nat) (kind : TokenKind) (mark : Mark) : TokenStream :=
  match number with
  | none => s.push kind mark
  | some n => { s with queue := s.queue.insertIdx (n - s.given) ⟨kind, mark⟩ }

def forget (s : TokenStream) (number : Nat) : TokenStream :=
  { s with candidates := s.candidates.filter (·.1 ≠ number) }

def setKey (s : TokenStream) (k : SimpleKey) : TokenStream :=
  { s with keys := k :: s.keys.drop 1 }

def unroll (s : TokenStream) (column : Int) (mark : Mark) : TokenStream :=
  if s.inFlow then s
  else
    let ended := s.indents.takeWhile (column < ·)
    { s with
      indents := s.indents.drop ended.length
      queue := s.queue ++ ended.map fun _ => ⟨.blockEnd, mark⟩ }

end TokenStream

def maxDepth : Nat := 10000

namespace Scan

def fail {α : Type} (context here : Mark) (problem : Problem) : Scan α :=
  throw (Fault.inText context here problem)

def cursor : Scan Cursor := do
  return (← get).cursor

def reading {α : Type} (x : Reading α) : Scan α := do
  let s ← get
  match x.run s.cursor with
  | .error f => throw f
  | .ok (a, cursor) =>
    set { s with cursor }
    return a

def allowKey (allowed : Bool) : Scan Unit :=
  modify fun s => { s with keyAllowed := allowed }

def roll (column : Nat) (number : Option Nat) (kind : TokenKind) (mark : Mark) : Scan Unit := do
  let s ← get
  if ! s.inFlow && s.indent < column then
    if s.indents.length ≥ maxDepth then
      fail (s.keys.headD {}).mark s.cursor.mark .tooDeep
    else set ({ s with indents := (column : Int) :: s.indents }.insert number kind mark)

/-- Is the candidate of a collection still good? The colon must follow on the same line and within
1024 characters. -/
def stillPossible (depth : Nat) : Scan Bool := do
  let s ← get
  let place := s.keys.length - 1 - depth
  match s.keys[place]? with
  | none => return false
  | some k =>
    if ! k.possible then return false
    else if k.mark.line < s.cursor.mark.line || k.mark.index + 1024 < s.cursor.mark.index then
      if k.required then fail k.mark s.cursor.mark .noSimpleKeyColon
      else
        set { s with keys := s.keys.set place { k with possible := false } }
        return false
    else return true

def dropKey : Scan Unit := do
  let s ← get
  match s.keys with
  | [] => return
  | k :: _ =>
    if k.possible then
      if k.required then fail k.mark s.cursor.mark .noSimpleKeyColon
      else set ((s.setKey { k with possible := false }).forget k.number)

def saveKey : Scan Unit := do
  let s ← get
  if s.keyAllowed then
    let required := ! s.inFlow && s.indent = s.cursor.mark.column
    let k : SimpleKey := { possible := true, required, number := s.nextNumber, mark := s.cursor.mark }
    dropKey
    modify fun s =>
      let s := (s.setKey k).forget k.number
      { s with candidates := (k.number, s.keys.length - 1) :: s.candidates }

def push (kind : TokenKind) (mark : Mark) : Scan Unit :=
  modify fun s => s.push kind mark

def take (width : Nat) (kind : TokenKind) : Scan Unit := do
  let start := (← cursor).mark
  reading (Reading.skipMany width)
  push kind start

def takeRead {α : Type} (reader : Reading α) (kind : α → TokenKind) : Scan Unit := do
  let start := (← cursor).mark
  let a ← reading reader
  push (kind a) start

open Reading in
/-- Moves to the next token. Tabs count as blanks only where no key may start. -/
def skipToToken (flow : Bool) : Nat → Bool → Reading Bool
  | 0, allowed => return allowed
  | n + 1, allowed => do
    need 1
    let c ← get
    if c.mark.column = 0 && c.opensWithMark then skip
    need 1
    skipWhile fun x => x = ' ' || ((flow || ! allowed) && x = '\t')
    if ← atChar '#' then skipComments (2 * (← left) + searchLimit + 2) 0
    if (← get).startsWith isBreak then
      need 2
      skipLine
      skipToToken flow n (! flow || allowed)
    else return allowed

def streamStart : Scan Unit :=
  modify fun s => ({ s with started := true, keys := [{}] }).push .streamStart s.cursor.mark

def streamEnd : Scan Unit := do
  modify fun s =>
    let m := s.cursor.mark
    let m := if m.column ≠ 0 then { m with line := m.line + 1, column := 0 } else m
    ({ s with cursor := { s.cursor with mark := m } }).unroll (-1) m
  dropKey
  modify fun s => ({ s with keyAllowed := false }).push .streamEnd s.cursor.mark

def closeBlocks : Scan Unit := do
  modify fun s => s.unroll (-1) s.cursor.mark
  dropKey
  allowKey false

def flowStart (kind : TokenKind) : Scan Unit := do
  saveKey
  let s ← get
  let k : SimpleKey := { number := s.nextNumber, mark := s.cursor.mark }
  if s.keys.length > maxDepth then fail k.mark s.cursor.mark .tooDeep
  else
    set { s with keys := k :: s.keys, keyAllowed := true }
    take 1 kind

def flowEnd (kind : TokenKind) : Scan Unit := do
  dropKey
  modify fun s =>
    if s.inFlow then { s.forget (s.keys.headD {}).number with keys := s.keys.drop 1 } else s
  allowKey false
  take 1 kind

def flowEntry : Scan Unit := do
  dropKey
  allowKey true
  take 1 .flowEntry

def blockSign (problem : Problem) (kind : TokenKind) : Scan Unit := do
  let s ← get
  if ! s.inFlow then
    if s.keyAllowed then roll s.cursor.mark.column none kind s.cursor.mark
    else fail s.cursor.mark s.cursor.mark problem

def blockEntry : Scan Unit := do
  blockSign .blockEntryNotAllowed .blockSequenceStart
  dropKey
  allowKey true
  take 1 .blockEntry

def keySign : Scan Unit := do
  blockSign .keyNotAllowed .blockMappingStart
  dropKey
  allowKey (! (← get).inFlow)
  take 1 .key

def valueSign : Scan Unit := do
  if ← stillPossible ((← get).keys.length - 1) then
    let k := (← get).keys.headD {}
    modify fun s => s.insert (some k.number) .key k.mark
    roll k.mark.column (some k.number) .blockMappingStart k.mark
    modify fun s => ((s.setKey { k with possible := false }).forget k.number)
    allowKey false
  else
    blockSign .valueNotAllowed .blockMappingStart
    allowKey (! (← get).inFlow)
  take 1 .value

def keyLike {α : Type} (reader : Reading α) (kind : α → TokenKind) : Scan Unit := do
  saveKey
  allowKey false
  takeRead reader kind

def blockScalar (literal : Bool) : Scan Unit := do
  dropKey
  allowKey true
  takeRead (readBlock literal (← get).indent) fun text => .scalar (String.ofList text) false

def quotedScalar (single : Bool) : Scan Unit :=
  keyLike (readQuoted single) fun text => .scalar (String.ofList text) false

def plainScalar : Scan Unit := do
  let s ← get
  saveKey
  allowKey false
  let (text, broken) ← reading (readPlain s.inFlow s.indent)
  push (.scalar (String.ofList text) true) s.cursor.mark
  if broken then allowKey true

def startsPlain (flow : Bool) (c : Cursor) : Bool :=
  match c.char? 0 with
  | none => false
  | some x =>
    (! isBlank x && ! isBreak x && ! "-?:,[]\x7b\x7d#&*!|>'\"%@`".toList.contains x) ||
      (x = '-' && ! (c.char? 1).any isBlank) ||
      (! flow && (x = '?' || x = ':') && ! c.endsWord 1)

def content (x : Char) : Scan Unit := do
  let s ← get
  let c := s.cursor
  let flow := s.inFlow
  if x = '[' then flowStart .flowSequenceStart
  else if x = '\x7b' then flowStart .flowMappingStart
  else if x = ']' then flowEnd .flowSequenceEnd
  else if x = '\x7d' then flowEnd .flowMappingEnd
  else if x = ',' then flowEntry
  else if x = '-' && c.endsWord 1 then blockEntry
  else if x = '?' && (flow || c.endsWord 1) then keySign
  else if x = ':' && (flow || c.endsWord 1) then valueSign
  else if x = '*' then keyLike readAnchor fun name => .reference (String.ofList name)
  else if x = '&' then keyLike readAnchor fun name => .anchor (String.ofList name)
  else if x = '!' then keyLike readTag fun (h, s) => .tag (String.ofList h) (String.ofList s)
  else if x = '|' && ! flow then blockScalar true
  else if x = '>' && ! flow then blockScalar false
  else if x = '\'' then quotedScalar true
  else if x = '"' then quotedScalar false
  else if startsPlain flow c then plainScalar
  else fail c.mark c.mark .noTokenStart

/-- Takes the next token, with the block ends before it and a comment behind it. A dash leaves the
comment to what follows. -/
def next : Scan Unit := do
  reading (Reading.need 1)
  let s ← get
  if ! s.started then streamStart
  else
    let allowed ← reading (skipToToken s.inFlow (s.cursor.rest.length + 1) s.keyAllowed)
    modify fun t => ({ t with keyAllowed := allowed }).unroll t.cursor.mark.column s.cursor.mark
    reading (Reading.need 4)
    let c ← cursor
    match c.rest with
    | [] => streamEnd
    | x :: _ =>
      if c.mark.column = 0 && x = '%' then
        closeBlocks
        takeRead readDirective .directive
      else if c.atDocumentMark '-' then
        closeBlocks
        take 3 .documentStart
      else if c.atDocumentMark '.' then
        closeBlocks
        take 3 .documentEnd
      else
        content x
        if (← get).queue.getLast?.all (·.kind ≠ .blockEntry) then reading Reading.skipLineComment

/-- Must more tokens be read before the first of the queue is known for sure? -/
def needsMore : Scan Bool := do
  let s ← get
  if s.queue.length ≤ 2 then return true
  else
    match s.candidates.lookup s.given with
    | none => return false
    | some depth => stillPossible depth

def fill : Nat → Scan Unit
  | 0 => return
  | n + 1 => do
    if ← needsMore then
      next
      fill n

def peek : Scan Token := do
  let s ← get
  fill (s.cursor.rest.length + 4)
  return (← get).queue.headD ⟨.streamEnd, s.cursor.mark⟩

def drop : Scan Unit :=
  modify fun s => { s with queue := s.queue.drop 1, given := s.given + 1 }

end Scan

end ExtensionLowering.Yaml
