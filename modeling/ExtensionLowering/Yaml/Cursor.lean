import ExtensionLowering.Yaml.Encoding
/-!
# Reading characters

A cursor is a place in the text of a document together with the characters from there on. Before it
looks at characters a reader asks for as many as it needs; further portions are then decoded until
there are enough, and what is wrong with a portion is met at this moment.
-/
namespace ExtensionLowering.Yaml

def byteOrderMark : Char := '\ufeff'

structure Cursor where
  rest : List Char
  mark : Mark := {}
  /-- How many of them are at hand. Behind the last one the end itself counts as many times as more
  was asked for. -/
  ready : Nat := 0
  behind : List Portion := []
  /-- When more was asked for the last time, was a byte order mark the first character at hand? -/
  opensWithMark : Bool := false
  /-- Has a line ended since the last character that is not a blank? -/
  lineEnded : Bool := false
  /-- What was wrong behind the characters that a search for a comment came to. -/
  missed : Option Problem := none
  deriving Repr

namespace Cursor

def ofPortions (ps : List Portion) : Cursor :=
  { rest := ps.flatMap (·.chars), behind := ps }

/-- Takes portions until `count` characters are at hand, of which there are `ready` already. A portion
that is wrong stays behind without its characters. -/
def takePortions (count ready : Nat) : List Portion → Nat × List Portion × Option Problem
  | [] => (ready + 1, [], none)
  | p :: ps =>
    let ready := ready + p.chars.length
    match p.problem with
    | some problem => (ready, [⟨[], some problem⟩], some problem)
    | none => if count ≤ ready then (ready, ps, none) else takePortions count ready ps

def fill (count : Nat) (c : Cursor) : Cursor × Option Problem :=
  if count ≤ c.ready then (c, none)
  else
    let (ready, behind, problem) := takePortions count c.ready c.behind
    ({ c with ready, behind, opensWithMark := c.rest.head? = some byteOrderMark }, problem)

def char? (c : Cursor) (n : Nat) : Option Char :=
  c.rest[n]?

def atChar (c : Cursor) (n : Nat) (x : Char) : Bool :=
  c.char? n = some x

def endsLine (c : Cursor) (n : Nat) : Bool :=
  match c.char? n with
  | none => true
  | some x => isBreak x

def endsWord (c : Cursor) (n : Nat) : Bool :=
  match c.char? n with
  | none => true
  | some x => isBlank x || isBreak x

def startsWith (c : Cursor) (p : Char → Bool) : Bool :=
  c.rest.head?.any p

def skip (c : Cursor) : Cursor :=
  { c with
    rest := c.rest.drop 1
    mark := { c.mark with index := c.mark.index + 1, column := c.mark.column + 1 }
    ready := c.ready - 1
    lineEnded := c.lineEnded && c.startsWith isBlank }

def skipLine (c : Cursor) : Cursor :=
  let width := match c.rest with
    | '\r' :: '\n' :: _ => 2
    | _ => 1
  { c with
    rest := c.rest.drop width
    mark := { index := c.mark.index + width, line := c.mark.line + 1, column := 0 }
    ready := c.ready - width
    lineEnded := true }

/-- Does a line start here with the three characters that begin or end a document? -/
def atDocumentMark (c : Cursor) (x : Char) : Bool :=
  c.mark.column = 0 && c.atChar 0 x && c.atChar 1 x && c.atChar 2 x && c.endsWord 3

def atDocumentBoundary (c : Cursor) : Bool :=
  c.atDocumentMark '-' || c.atDocumentMark '.'

end Cursor

abbrev Reading := StateT Cursor (Except Fault)

namespace Reading

def need (count : Nat) : Reading Unit := do
  match (← get).fill count with
  | (c, none) => set c
  | (_, some problem) => throw (Fault.ofProblem problem)

/-- Asks for characters and tells whether nothing was wrong with them. What was wrong is kept. -/
def search (count : Nat) : Reading Bool := do
  match (← get).fill count with
  | (c, none) =>
    set c
    return true
  | (c, some problem) =>
    set { c with missed := some problem }
    return false

def char? (n : Nat) : Reading (Option Char) := do
  return (← get).char? n

def atChar (x : Char) : Reading Bool := do
  return (← get).atChar 0 x

def mark : Reading Mark := do
  return (← get).mark

/-- How many characters are left, which bounds the steps of every loop. -/
def left : Reading Nat := do
  return (← get).rest.length

def fail {α : Type} (start : Mark) (problem : Problem) : Reading α := do
  throw (Fault.inText start (← mark) problem)

def skip : Reading Unit :=
  modify Cursor.skip

def skipMany : Nat → Reading Unit
  | 0 => return
  | n + 1 => do
    skip
    skipMany n

def skipLine : Reading Unit :=
  modify Cursor.skipLine

/-- Takes characters that pass a test, at most so many, before those already taken in reverse. -/
def spanFrom (p : Char → Bool) : Nat → List Char → Reading (List Char)
  | 0, taken => return taken.reverse
  | n + 1, taken => do
    match (← get).rest.head? with
    | none => return taken.reverse
    | some x =>
      if p x then
        skip
        need 1
        spanFrom p n (x :: taken)
      else return taken.reverse

/-- The characters up to the first that fails the test, which is asked for. -/
def span (p : Char → Bool) : Reading (List Char) := do
  spanFrom p (← left) []

def skipWhile (p : Char → Bool) : Reading Unit := do
  let _ ← span p

def skipToBreak : Reading Unit :=
  skipWhile (! isBreak ·)

def skipBreak : Reading Unit := do
  if (← get).startsWith isBreak then
    need 2
    skipLine

end Reading

end ExtensionLowering.Yaml
