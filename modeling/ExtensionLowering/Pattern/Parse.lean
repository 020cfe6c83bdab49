import ExtensionLowering.Pattern.Collapse
/-!
# Reading patterns

`parse` reads the text of a pattern. It goes through the text once, with a stack of the expressions
read and of the groups and alternatives that are still open. Every reader of a piece returns what is
left of the text, and a fault shows the piece of the text in question. An expression that becomes too
deep or too large is refused as soon as it is put on the stack, with the whole text.
-/
namespace ExtensionLowering.Pattern

inductive Entry where
  /-- A literal that may still grow, in reverse. -/
  | text (options : Options) (codes : List Nat)
  | part (r : Regex)
  /-- A group that is still open, with the options in force before it. -/
  | group (capture : Option (Nat × String)) (saved : Options)
  | bar

structure ReadState where
  options : Options := {}
  captures : Nat := 0
  stack : List Entry := []
  meter : Meter := {}

def piece (s rest : List Char) : List Char :=
  s.take (s.length - rest.length)

/-! ### Building -/

namespace Entry

def ofRegex : Regex → Entry
  | .literal o codes => .text o codes.reverse
  | r => .part r

def regex? : Entry → Option Regex
  | .text o codes => some (.literal o codes.reverse)
  | .part r => some r
  | _ => none

def single? : Entry → Option Regex
  | .text o [code] => some (.literal o [code])
  | .part r => if r.set?.isSome then some r else none
  | _ => none

def tidy : Entry → Entry
  | .part r => .part r.tidy
  | e => e

end Entry

/-- The expressions on top of the stack, the topmost last, and what lies below them. -/
def popParts (parts : List Regex) : List Entry → List Regex × List Entry
  | [] => (parts, [])
  | e :: rest =>
    match e.regex? with
    | some r => popParts (r :: parts) rest
    | none => (parts, e :: rest)

/-- A set of one character, or of one character in both cases, is a literal. -/
def literalOf? (o : Options) : CharSet → Option (Options × Nat)
  | [(a, b)] =>
    if a = b then some ({ o with foldCase := false }, a)
    else if a + 1 = b ∧ isPair a b then some ({ o with foldCase := true }, a)
    else none
  | [(a, b), (c, d)] =>
    if a = b ∧ c = d ∧ isPair a c then some ({ o with foldCase := true }, a) else none
  | _ => none
where
  isPair (a b : Nat) : Bool :=
    (Unicode.foldClass a).length = 2 && (Unicode.foldClass a).contains b

namespace ReadState

def codesOf : Regex → Nat
  | .literal _ codes => codes.length
  | .chars set => 2 * set.length
  | _ => 0

def make (s : ReadState) : ReadState :=
  { s with meter := s.meter.make }

def release (s : ReadState) (count : Nat) : ReadState :=
  { s with meter := s.meter.release count }

def build {α : Type} (s : ReadState) (x : Build α) : Except FaultKind (α × ReadState) :=
  (x.run s.meter).map fun (a, meter) => (a, { s with meter })

def joinTexts (s : ReadState) : ReadState :=
  match s.stack with
  | .text o codes :: .text p others :: rest =>
    if o.foldCase = p.foldCase then
      release { s with stack := .text p (codes ++ others) :: rest } 1
    else s
  | _ => s

/-- Puts an expression on the stack and looks whether it is too large or too deep. -/
def put (s : ReadState) (r : Regex) : Except FaultKind ReadState := do
  let stack := Entry.ofRegex r :: s.stack
  let (_, s) ← s.build (Build.check (stack.filterMap Entry.regex?) r)
  .ok { s with stack }

/-- Puts an expression on the stack. Literals below it are joined first; a character behind two of
them takes the place of the second one. -/
def push (s : ReadState) (r : Regex) : Except FaultKind ReadState :=
  let s := { s with meter := { s.meter with codes := s.meter.codes + codesOf r } }
  let asLiteral := match r with
    | .chars set => literalOf? s.options set
    | _ => none
  match asLiteral, s.stack with
  | none, _ => s.joinTexts.put r
  | some (o, code), .text p codes :: .text q others :: rest =>
    if p.foldCase = q.foldCase then
      .ok { s with stack := .text o [code] :: .text q (codes ++ others) :: rest }
    else s.put (.literal o [code])
  | some (o, code), _ => s.put (.literal o [code])

def pushNew (s : ReadState) (r : Regex) : Except FaultKind ReadState :=
  s.make.push r

def pushSet (s : ReadState) (set : CharSet) : Except FaultKind ReadState :=
  s.pushNew (.chars set.normal)

def pushLiteral (s : ReadState) (code : Nat) : Except FaultKind ReadState :=
  let code := if s.options.foldCase then (Unicode.foldClass code).foldl min code else code
  s.pushNew (.literal s.options [code])

def pushSign (s : ReadState) (e : Entry) : ReadState :=
  let s := s.make.joinTexts
  { s with stack := e :: s.stack }

def openGroup (s : ReadState) (capture : Option (Nat × String)) (options : Options) : ReadState :=
  { s.pushSign (.group capture s.options) with
    options
    captures := s.captures + capture.toList.length }

def closeSequence (s : ReadState) : Except FaultKind ReadState := do
  let s := s.joinTexts
  match popParts [] s.stack with
  | ([], stack) => pushNew { s with stack } .empty
  | (rs, stack) =>
    let (r, s) ← build { s with stack } (Regex.sequenceOf rs)
    s.push r

/-- Moves the sign of alternatives on top of the stack over the expression there. Two of one character
become one. -/
def moveBar? (s : ReadState) : Option ReadState :=
  match s.stack with
  | e :: .bar :: below :: rest =>
    match e.single?, below.single? with
    | some r, some t => some (release { s with stack := .bar :: .ofRegex (t.unite [r]) :: rest } 1)
    | _, _ => some { s with stack := .bar :: e :: below.tidy :: rest }
  | e :: .bar :: rest => some { s with stack := .bar :: e :: rest }
  | _ => none

def nextAlternative (s : ReadState) : Except FaultKind ReadState := do
  let s ← s.closeSequence
  .ok (s.moveBar?.getD (s.pushSign .bar))

def closeAlternatives (s : ReadState) : Except FaultKind ReadState := do
  let s ← s.closeSequence
  let s := match s.moveBar? with
    | some t => { t with stack := t.stack.drop 1 }
    | none => s
  let (rs, stack) := match s.stack with
    | e :: rest => popParts [] (e.tidy :: rest)
    | [] => ([], [])
  let (r, s) ← build { s with stack } (Regex.alternation rs)
  s.push r

def closeGroup? (s : ReadState) : Except FaultKind (Option ReadState) := do
  let s ← s.closeAlternatives
  match s.stack with
  | e :: .group capture saved :: rest =>
    match e.regex? with
    | none => .ok none
    | some r =>
      let s := { s with options := saved, stack := rest }
      match capture with
      | some (index, name) => some <$> s.push (.capture index name r)
      | none => some <$> s.push r
  | _ => .ok none

end ReadState

/-! ### Escapes and sets -/

def isOctal (c : Char) : Bool := '0' ≤ c && c ≤ '7'

def octalValue (cs : List Char) : Nat :=
  cs.foldl (fun n c => 8 * n + (c.toNat - '0'.toNat)) 0

def hexDigit? (c : Char) : Option Nat :=
  if '0' ≤ c && c ≤ '9' then some (c.toNat - '0'.toNat)
  else if 'a' ≤ c && c ≤ 'f' then some (c.toNat - 'a'.toNat + 10)
  else if 'A' ≤ c && c ≤ 'F' then some (c.toNat - 'A'.toNat + 10)
  else none

/-- The digits of `\x{...}` up to the closing brace. A failure leaves the text behind the character
that is wrong. -/
def bracedHex (value : Option Nat) : List Char → Except (List Char) (Nat × List Char)
  | [] => .error []
  | c :: rest =>
    if c = '\x7d' then
      match value with
      | some v => .ok (v, rest)
      | none => .error rest
    else
      match hexDigit? c with
      | none => .error rest
      | some d =>
        let v := value.getD 0 * 16 + d
        if CharSet.lastCode < v then .error rest else bracedHex (some v) rest

def hexEscape : List Char → Except (List Char) (Nat × List Char)
  | [] => .error []
  | c :: rest =>
    if c = '\x7b' then bracedHex none rest
    else
      match rest with
      | [] => .error []
      | d :: rest =>
        match hexDigit? c, hexDigit? d with
        | some x, some y => .ok (16 * x + y, rest)
        | _, _ => .error rest

def escape (s : List Char) : Except Fault (Nat × List Char) :=
  let octal (first : Char) (rest : List Char) : Except Fault (Nat × List Char) :=
    let more := (rest.take 2).takeWhile isOctal
    .ok (octalValue (first :: more), rest.drop more.length)
  match s.drop 1 with
  | [] => .error ⟨.trailingBackslash, []⟩
  | c :: rest =>
    let wrong (rest : List Char) : Except Fault (Nat × List Char) := .error ⟨.escape, piece s rest⟩
    match c with
    | 'a' => .ok (7, rest)
    | 't' => .ok (9, rest)
    | 'n' => .ok (10, rest)
    | 'v' => .ok (11, rest)
    | 'f' => .ok (12, rest)
    | 'r' => .ok (13, rest)
    | '0' => octal c rest
    | 'x' =>
      match hexEscape rest with
      | .ok r => .ok r
      | .error rest => wrong rest
    | c =>
      if isOctal c then (if rest.head?.any isOctal then octal c rest else wrong rest)
      else if c.toNat < 128 && !c.isAlphanum then .ok (c.toNat, rest)
      else wrong rest

def inWhole {α : Type} (whole : List Char) (r : Except FaultKind α) : Except Fault α :=
  r.mapError (⟨·, whole⟩)

/-- A set, closed under folding if the options ask for it, or what it leaves out. -/
def adjust (o : Options) (negated : Bool) (set : CharSet) : CharSet :=
  let set := if o.foldCase then set.foldClosure else set
  if negated then set.complement else set

def classEscape? (o : Options) : List Char → Option (CharSet × List Char)
  | '\\' :: c :: rest =>
    match c with
    | 'd' => some (adjust o false .digit, rest)
    | 'D' => some (adjust o true .digit, rest)
    | 's' => some (adjust o false .blank, rest)
    | 'S' => some (adjust o true .blank, rest)
    | 'w' => some (adjust o false .word, rest)
    | 'W' => some (adjust o true .word, rest)
    | _ => none
  | _ => none

def upTo (c : Char) (s : List Char) : Option (List Char × List Char) :=
  match s.dropWhile (· ≠ c) with
  | [] => none
  | _ :: rest => some (s.takeWhile (· ≠ c), rest)

def propertySet? (o : Options) (s : List Char) : Option (Except Fault (CharSet × List Char)) :=
  let read (negated : Bool) (name shown rest : List Char) : Except Fault (CharSet × List Char) :=
    let (negated, name) := match name with
      | '^' :: name => (!negated, name)
      | name => (negated, name)
    let o := if CharSet.propertyFolds (String.ofList name) then o else {}
    match CharSet.property? (String.ofList name) with
    | some set => .ok (adjust o negated set, rest)
    | none => .error ⟨.charRange, shown⟩
  let named (negated : Bool) (rest : List Char) : Except Fault (CharSet × List Char) :=
    match rest with
    | '\x7b' :: inner =>
      match upTo '\x7d' inner with
      | some (name, after) => read negated name (piece s after) after
      | none => .error ⟨.charRange, s⟩
    | c :: after => read negated [c] (piece s after) after
    | [] => read negated [] s []
  match s with
  | '\\' :: 'p' :: rest => some (named false rest)
  | '\\' :: 'P' :: rest => some (named true rest)
  | _ => none

/-- The name in `[:name:]` from behind its first colon, and the rest of the text. -/
def bracketName : List Char → Option (List Char × List Char)
  | [] => none
  | ':' :: ']' :: rest => some ([], rest)
  | c :: rest => (bracketName rest).map fun (name, after) => (c :: name, after)

def bracketSet? (o : Options) (s : List Char) : Option (Except Fault (CharSet × List Char)) :=
  match s with
  | '[' :: ':' :: rest =>
    match bracketName rest with
    | none => none
    | some (name, after) =>
      let (negated, bare) := match name with
        | '^' :: bare => (true, bare)
        | bare => (false, bare)
      match CharSet.bracketed? (String.ofList bare) with
      | some set => some (.ok (adjust o negated set, after))
      | none => some (.error ⟨.charRange, piece s after⟩)
  | _ => none

def setChar (whole s : List Char) : Except Fault (Nat × List Char) :=
  match s with
  | [] => .error ⟨.missingBracket, whole⟩
  | '\\' :: _ => escape s
  | c :: rest => .ok (c.toNat, rest)

def setItem (o : Options) (whole s : List Char) : Except Fault (CharSet × List Char) :=
  match (bracketSet? o s).or (propertySet? o s) with
  | some r => r
  | none =>
    match classEscape? o s with
    | some r => .ok r
    | none => do
      let (lo, rest) ← setChar whole s
      match rest with
      | '-' :: c :: more =>
        if c = ']' then .ok (adjust o false [(lo, lo)], rest)
        else do
          let (hi, rest) ← setChar whole (c :: more)
          if hi < lo then .error ⟨.charRange, piece s rest⟩
          else .ok (adjust o false [(lo, hi)], rest)
      | rest => .ok (adjust o false [(lo, lo)], rest)

/-- The members of a set up to its closing bracket, which is a member itself in first place. -/
def setItems (o : Options) (whole : List Char) :
    Nat → Bool → List Char → CharSet → Except Fault (CharSet × List Char)
  | 0, _, _, _ => .error ⟨.missingBracket, whole⟩
  | fuel + 1, first, s, acc =>
    match first, s with
    | false, ']' :: rest => .ok (acc, rest)
    | _, s => do
      let (set, rest) ← setItem o whole s
      setItems o whole fuel false rest (acc ++ set)

def bracketed (o : Options) (s : List Char) : Except Fault (CharSet × List Char) :=
  let (negated, inner) := match s.drop 1 with
    | '^' :: inner => (true, inner)
    | inner => (false, inner)
  match setItems o s (s.length + 1) true inner [] with
  | .ok (set, rest) => .ok (if negated then set.complement else set, rest)
  | .error e => .error e

/-! ### Groups and repetitions -/

def isGroupName (name : List Char) : Bool :=
  !name.isEmpty && name.all fun c => c == '_' || c.isAlphanum

def Options.set (o : Options) (value : Bool) : Char → Option Options
  | 'i' => some { o with foldCase := value }
  | 'm' => some { o with multiline := value }
  | 's' => some { o with dotAll := value }
  | 'U' => some { o with swapGreed := value }
  | _ => none

/-- The options behind `(?`, up to a colon, which opens a group, or a closing parenthesis. `value` is
what a letter switches to, `seen` whether there was a letter since the last sign. -/
def groupOptions (s : List Char) (value seen : Bool) (o : Options) :
    List Char → Except Fault (Bool × Options × List Char)
  | [] => .error ⟨.groupOptions, s⟩
  | c :: rest =>
    let wrong : Except Fault (Bool × Options × List Char) := .error ⟨.groupOptions, piece s rest⟩
    if c = ':' ∨ c = ')' then
      if !value && !seen then wrong else .ok (c = ':', o, rest)
    else if c = '-' then
      if value then groupOptions s false false o rest else wrong
    else
      match o.set value c with
      | some o => groupOptions s value true o rest
      | none => wrong

/-- What begins with `(?`: a named group, or a group or change of options. -/
def specialGroup (st : ReadState) (s : List Char) : Except Fault (ReadState × List Char) :=
  let named (nameAt : Nat) : Except Fault (ReadState × List Char) :=
    match upTo '>' s with
    | none => .error ⟨.namedCapture, s⟩
    | some (before, rest) =>
      let name := before.drop nameAt
      if isGroupName name then
        .ok (st.openGroup (some (st.captures + 1, String.ofList name)) st.options, rest)
      else .error ⟨.namedCapture, piece s rest⟩
  match s.drop 2 with
  | 'P' :: '<' :: _ :: _ => named 4
  | '<' :: _ :: _ => named 3
  | rest => do
    let (opens, o, rest) ← groupOptions s true false st.options rest
    .ok (if opens then st.openGroup none o else { st with options := o }, rest)

def numeral (s : List Char) : Option (Nat × List Char) :=
  let ds := s.takeWhile Char.isDigit
  match ds with
  | [] => none
  | '0' :: _ :: _ => none
  | ds => some (ds.foldl (fun n c => 10 * n + (c.toNat - '0'.toNat)) 0, s.drop ds.length)

def bounds? (s : List Char) : Option (Nat × Option Nat × List Char) := do
  let (min, rest) ← numeral (s.drop 1)
  match rest with
  | '\x7d' :: rest => some (min, some min, rest)
  | ',' :: '\x7d' :: rest => some (min, none, rest)
  | ',' :: rest =>
    let (max, rest) ← numeral rest
    match rest with
    | '\x7d' :: rest => some (min, some max, rest)
    | _ => none
  | _ => none

def maxRepeat : Nat := 1000

/-- Repeats the last part. `before` is the text from the operator on, `after` what follows it,
`previous` the text from the operator just before it on, empty if there was none. -/
def repeatLast (whole : List Char) (st : ReadState) (make : Bool → Regex → Regex)
    (before after previous : List Char) : Except Fault (ReadState × List Char) :=
  let (swap, after) := match after with
    | '?' :: after => (true, after)
    | after => (false, after)
  if !previous.isEmpty then .error ⟨.nestedRepeat, piece previous after⟩
  else
    match st.stack.head?.bind Entry.regex? with
    | none => .error ⟨.missingRepeatArgument, piece before after⟩
    | some r => do
      let r := make (st.options.swapGreed == swap) r
      let st ← inWhole whole (ReadState.put { st.make with stack := st.stack.drop 1 } r)
      let ok := match r with
        | .counted min max _ _ =>
          !(2 ≤ min || max.any (2 ≤ ·)) || r.repeatsWithin maxRepeat
        | _ => true
      if ok then .ok (st, after) else .error ⟨.repeatCount, piece before after⟩

def quotedRun : List Char → List Char × List Char
  | [] => ([], [])
  | '\\' :: 'E' :: rest => ([], rest)
  | c :: rest => let (run, after) := quotedRun rest; (c :: run, after)

def backslash (whole : List Char) (st : ReadState) (s : List Char) :
    Except Fault (ReadState × List Char) := do
  let pushed (rest : List Char) (r : Except FaultKind ReadState) :
      Except Fault (ReadState × List Char) :=
    (inWhole whole r).map (·, rest)
  match s.drop 1 with
  | 'A' :: rest => pushed rest (st.pushNew (.anchor .beginText))
  | 'b' :: rest => pushed rest (st.pushNew (.anchor .wordBoundary))
  | 'B' :: rest => pushed rest (st.pushNew (.anchor .noWordBoundary))
  | 'C' :: rest => .error ⟨.escape, piece s rest⟩
  | 'Q' :: rest =>
    let (run, after) := quotedRun rest
    pushed after (run.foldlM (fun st c => st.pushLiteral c.toNat) st)
  | 'z' :: rest => pushed rest (st.pushNew (.anchor .endText))
  | _ =>
    match propertySet? st.options s with
    | some (.ok (set, rest)) => pushed rest (st.pushSet set)
    | some (.error e) => .error e
    | none =>
      match classEscape? st.options s with
      | some (set, rest) => pushed rest (st.pushSet set)
      | none =>
        let (code, rest) ← escape s
        pushed rest ((st.make.release 1).pushLiteral code)

/-- One step of reading: the new state, the rest of the text and, behind a repetition, the text from
its operator on. -/
def readStep (whole previous : List Char) (st : ReadState) (s : List Char) :
    Except Fault (ReadState × List Char × List Char) :=
  let plain (r : ReadState × List Char) : ReadState × List Char × List Char := (r.1, r.2, [])
  let repeated (r : ReadState × List Char) : ReadState × List Char × List Char := (r.1, r.2, s)
  let pushed (rest : List Char) (r : Except FaultKind ReadState) :
      Except Fault (ReadState × List Char × List Char) :=
    (inWhole whole r).map (·, rest, [])
  match s with
  | [] => .ok (st, [], [])
  | '(' :: '?' :: _ => plain <$> specialGroup st s
  | '(' :: rest => .ok (st.openGroup (some (st.captures + 1, "")) st.options, rest, [])
  | '|' :: rest => pushed rest st.nextAlternative
  | ')' :: rest => do
    match ← inWhole whole st.closeGroup? with
    | some st => .ok (st, rest, [])
    | none => .error ⟨.unexpectedParen, whole⟩
  | '^' :: rest =>
    pushed rest (st.pushNew (.anchor (if st.options.multiline then .beginLine else .beginText)))
  | '$' :: rest =>
    pushed rest (st.pushNew (.anchor (if st.options.multiline then .endLine else .endText)))
  | '.' :: rest => pushed rest (st.pushNew (.any st.options.dotAll))
  | '[' :: _ => do
    let (set, rest) ← bracketed st.options s
    pushed rest (st.pushSet set)
  | '*' :: rest => repeated <$> repeatLast whole st .star s rest previous
  | '+' :: rest => repeated <$> repeatLast whole st .plus s rest previous
  | '?' :: rest => repeated <$> repeatLast whole st .quest s rest previous
  | '\\' :: _ => plain <$> backslash whole st s
  | c :: rest =>
    if c = '\x7b' then
      match bounds? s with
      | none => pushed rest (st.pushLiteral c.toNat)
      | some (min, max, after) =>
        if maxRepeat < min || max.any fun m => maxRepeat < m || m < min then
          .error ⟨.repeatCount, piece s after⟩
        else repeated <$> repeatLast whole st (.counted min max) s after previous
    else pushed rest (st.pushLiteral c.toNat)

/-- The text from the first stray place in `s` on, if it lies before the last `left` characters. Places
are counted from the end of the text. -/
def strayIn? (strays : List Nat) (s : List Char) (left : Nat) : Option (List Char) :=
  (strays.find? fun p => left < p && p ≤ s.length).map fun p => s.drop (s.length - p)

def FaultKind.isOfReading : FaultKind → Bool
  | .charRange | .escape | .namedCapture | .groupOptions | .missingBracket => true
  | _ => false

/-- Looks whether there is a stray place in what a step has read. A name is looked at by itself,
without the sign that closes it. -/
def checkStrays {α : Type} (strays : List Nat) (s : List Char) (left : α → Nat) :
    Except Fault α → Except Fault α
  | .ok a =>
    match strayIn? strays s (left a) with
    | some t => .error ⟨.notText, t⟩
    | none => .ok a
  | .error fault =>
    let left := s.length - fault.piece.length
    match strayIn? strays s left with
    | some t =>
      if ! fault.kind.isOfReading then .error fault
      else if fault.piece.getLast?.any ['>', '\x7d'].contains then
        .error ⟨.notText, t.take (t.length - left - 1)⟩
      else .error ⟨.notText, t⟩
    | none => .error fault

def readAll (strays : List Nat) (whole : List Char) :
    Nat → List Char → ReadState → List Char → Except Fault ReadState
  | 0, _, st, _ => .ok st
  | _ + 1, _, st, [] => .ok st
  | fuel + 1, previous, st, c :: s => do
    let (st, rest, previous) ←
      checkStrays strays (c :: s) (·.2.1.length) (readStep whole previous st (c :: s))
    readAll strays whole fuel previous st rest

/-- The expression that a text denotes, and the number of its groups. At a stray place, counted from
the end, there is something that is no text. -/
def parse (text : String) (strays : List Nat) : Except Fault (Regex × Nat) := do
  let whole := text.toList
  let st ← readAll strays whole whole.length [] {} whole
  let st ← inWhole whole st.closeAlternatives
  match st.stack.map Entry.regex? with
  | [some r] => .ok (r, st.captures)
  | _ => .error ⟨.missingParen, whole⟩

end ExtensionLowering.Pattern
