import ExtensionLowering.Yaml.Cursor
/-!
# Comments

A comment runs to the end of its line. Behind a token on the same line, and behind another comment, a
comment is searched for over a limited number of octets; further on it counts as an ordinary place
of the text, where a tab may not stand. What is wrong with the text at the far end of a search is not
reported at once.
-/
namespace ExtensionLowering.Yaml.Reading

def searchLimit : Nat := 512

def isWideBreak (c : Char) : Bool :=
  isBreak c && 0x80 ≤ c.toNat

/-- Moves over the comment that starts at an index, with the blanks and line breaks before it. -/
def skipComment (start : Nat) : Nat → Reading Unit
  | 0 => return
  | n + 1 => do
    need 1
    let c ← get
    if c.endsLine 0 then
      if c.mark.index < start then
        need 2
        skipLine
        skipComment start n
    else
      skip
      skipComment start n

def skipCommentAt (ahead : Nat) : Reading Unit := do
  skipComment ((← mark).index + ahead) ((← left) + 1)

/-- Moves over comments that stand on lines of their own, looking at the character so far ahead. A
line break of several octets ends the search. -/
def skipComments : Nat → Nat → Reading Unit
  | 0, _ => return
  | n + 1, ahead => do
    if ahead < searchLimit then
      if ← search (ahead + 1) then
        match ← char? ahead with
        | none => return
        | some x =>
          if isBlank x then skipComments n (ahead + 1)
          else if isWideBreak x then wideBreak (ahead + 1)
          else if isBreak x then skipComments n (ahead + 1)
          else if x = '#' then
            skipCommentAt ahead
            if (← get).startsWith isWideBreak then wideBreak 1 else skipComments n 1
where
  wideBreak (ahead : Nat) : Reading Unit := do
    if ahead < searchLimit then
      let _ ← search (ahead + 1)

/-- Moves over a comment on the line of the token before it, looking at the character so far ahead. -/
def skipLineCommentFrom : Nat → Nat → Reading Unit
  | 0, _ => return
  | n + 1, ahead => do
    if ahead < searchLimit then
      if ← search (ahead + 1) then
        match ← char? ahead with
        | none => return
        | some x =>
          if isBlank x then skipLineCommentFrom n (ahead + 1)
          else if x = '#' then skipCommentAt ahead

def skipLineComment : Reading Unit := do
  if ! (← get).lineEnded then skipLineCommentFrom searchLimit 0

end ExtensionLowering.Yaml.Reading
