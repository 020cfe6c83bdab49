import ExtensionLowering.Pattern.Basic
/-!
# Matching programs

An expression is turned into a program of small steps, in which the order of the two ways of a fork
says which one is preferred. `Program.find?` looks for the leftmost match and, among those, for the
one that the preferences lead to first; a step that was already tried at a place is not tried there
again.
-/
namespace ExtensionLowering.Pattern

inductive Inst where
  /-- Goes on at the first place, or else at the second. -/
  | fork (first second : Nat)
  | note (slot next : Nat)
  | check (a : Anchor) (next : Nat)
  | read (set : CharSet) (next : Nat)
  | accept
  deriving Repr

abbrev Code := Array Inst

/-- A piece of a program is put in front of a given step: it returns its own first step. -/
abbrev Emit := Nat → Code → Nat × Code

namespace Code

def emit (code : Code) (i : Inst) : Nat × Code :=
  (code.size, code.push i)

def fork (code : Code) (greedy : Bool) (body next : Nat) : Nat × Code :=
  code.emit (if greedy then .fork body next else .fork next body)

/-- A loop around `body` that is entered through its fork or, with `once`, through its body. -/
def loop (code : Code) (greedy once : Bool) (body : Emit) (next : Nat) : Nat × Code :=
  let (at_, code) := code.emit (.fork next next)
  let (entry, code) := body at_ code
  let code := code.setIfInBounds at_ (if greedy then .fork entry next else .fork next entry)
  (if once then entry else at_, code)

def sequence : List CharSet → Emit
  | [], next, code => (next, code)
  | set :: sets, next, code =>
    let (rest, code) := sequence sets next code
    code.emit (.read set rest)

def copies (body : Emit) : Nat → Emit
  | 0, next, code => (next, code)
  | n + 1, next, code =>
    let (entry, code) := copies body n next code
    body entry code

/-- Up to `n` copies of `body`, each inside the one before. -/
def optional (greedy : Bool) (body : Emit) : Nat → Emit
  | 0, next, code => (next, code)
  | n + 1, next, code =>
    let (inner, code) := optional greedy body n next code
    let (entry, code) := body inner code
    code.fork greedy entry next

/-- Any number of rounds. A body that may be empty is entered before its loop, so that an empty
round comes in its proper order. -/
def many (greedy nullable : Bool) (body : Emit) : Emit := fun next code =>
  if nullable then
    let (entry, code) := code.loop greedy true body next
    code.fork greedy entry next
  else code.loop greedy false body next

end Code

namespace Regex

mutual

def emit : Regex → Emit
  | .empty => fun next code => (next, code)
  | .literal o codes => Code.sequence (codes.map (literalSet o))
  | .chars set => fun next code => code.emit (.read set next)
  | .any newline => fun next code => code.emit (.read (if newline then .all else .notNewline) next)
  | .anchor a => fun next code => code.emit (.check a next)
  | .concat ps => emitAll ps
  | .alternate ps => emitAny ps
  | .star greedy r => Code.many greedy r.nullable r.emit
  | .plus greedy r => fun next code => code.loop greedy true r.emit next
  | .quest greedy r => Code.optional greedy r.emit 1
  | .counted min none greedy r => fun next code =>
    if min = 0 then Code.many greedy r.nullable r.emit next code
    else
      let (last, code) := code.loop greedy true r.emit next
      Code.copies r.emit (min - 1) last code
  | .counted min (some max) greedy r => fun next code =>
    let (rest, code) := Code.optional greedy r.emit (max - min) next code
    Code.copies r.emit min rest code
  | .capture index _ r => fun next code =>
    let (close, code) := code.emit (.note (2 * index + 1) next)
    let (entry, code) := r.emit close code
    code.emit (.note (2 * index) entry)

def emitAll : List Regex → Emit
  | [] => fun next code => (next, code)
  | r :: rs => fun next code =>
    let (entry, code) := emitAll rs next code
    r.emit entry code

def emitAny : List Regex → Emit
  | [] => fun next code => (next, code)
  | [r] => r.emit
  | r :: rs => fun next code =>
    let (second, code) := emitAny rs next code
    let (first, code) := r.emit next code
    code.emit (.fork first second)

end

mutual

def groupNames : Regex → List (Nat × String)
  | .empty | .literal _ _ | .chars _ | .any _ | .anchor _ => []
  | .concat ps | .alternate ps => allGroupNames ps
  | .star _ r | .plus _ r | .quest _ r | .counted _ _ _ r => r.groupNames
  | .capture index name r => (index, name) :: r.groupNames

def allGroupNames : List Regex → List (Nat × String)
  | [] => []
  | r :: rs => r.groupNames ++ allGroupNames rs

end

end Regex

structure Program where
  code : Code
  start : Nat
  groups : Nat
  names : List (String × Nat)

abbrev Slots := Array (Option Nat)

structure Match where
  first : Nat
  last : Nat
  slots : Slots
  deriving Repr

def Match.group? (m : Match) (n : Nat) : Option (Nat × Nat) := do
  let lo ← (m.slots[2 * n]?).join
  let hi ← (m.slots[2 * n + 1]?).join
  some (lo, hi)

def isWordAt (text : Array Char) (i : Nat) : Bool :=
  (text[i]?).any fun c => CharSet.word.contains c.toNat

def isWordBefore (text : Array Char) : Nat → Bool
  | 0 => false
  | i + 1 => isWordAt text i

def Anchor.holds (a : Anchor) (text : Array Char) (i : Nat) : Bool :=
  match a with
  | .beginText => i = 0
  | .endText => i = text.size
  | .beginLine => i = 0 || text[i - 1]? = some '\n'
  | .endLine => i = text.size || text[i]? = some '\n'
  | .wordBoundary => isWordBefore text i != isWordAt text i
  | .noWordBoundary => isWordBefore text i == isWordAt text i

/-- A step still to be tried: its number, the place in the text and the slots noted so far. -/
structure Task where
  step : Nat
  place : Nat
  slots : Slots

namespace Program

def ofRegex (r : Regex) (groups : Nat) : Program :=
  let (done, code) := Code.emit #[] .accept
  let (close, code) := code.emit (.note 1 done)
  let (entry, code) := r.emit close code
  let (start, code) := code.emit (.note 0 entry)
  let names := (r.groupNames.filter fun g => g.2 ≠ "").mergeSort fun a b => a.1 ≤ b.1
  { code, start, groups, names := names.map fun (index, name) => (name, index) }

/-- Tries the tasks in order. `tried` says which steps were tried at which places. -/
def run (p : Program) (text : Array Char) :
    Nat → Array Bool → List Task → Option Slots × Array Bool
  | 0, tried, _ => (none, tried)
  | _ + 1, tried, [] => (none, tried)
  | fuel + 1, tried, t :: rest =>
    let key := t.step * (text.size + 1) + t.place
    if tried[key]? = some false then
      let tried := tried.setIfInBounds key true
      match p.code[t.step]? with
      | some .accept => (some t.slots, tried)
      | some (.fork first second) =>
        p.run text fuel tried ({ t with step := first } :: { t with step := second } :: rest)
      | some (.note slot next) =>
        p.run text fuel tried
          ({ t with step := next, slots := t.slots.setIfInBounds slot (some t.place) } :: rest)
      | some (.check a next) =>
        if a.holds text t.place then p.run text fuel tried ({ t with step := next } :: rest)
        else p.run text fuel tried rest
      | some (.read set next) =>
        if (text[t.place]?).any fun c => set.contains c.toNat then
          p.run text fuel tried ({ t with step := next, place := t.place + 1 } :: rest)
        else p.run text fuel tried rest
      | none => p.run text fuel tried rest
    else p.run text fuel tried rest

/-- Every step is tried at most once at each place, and leads to at most two more tasks. -/
def fuelFor (p : Program) (text : Array Char) : Nat :=
  2 * (p.code.size + 1) * (text.size + 2)

/-- The match with the leftmost start among `count + 1` places from `place` on. -/
def findFrom (p : Program) (text : Array Char) : Nat → Nat → Array Bool → Option Match
  | count, place, tried =>
    let blank : Slots := Array.replicate (2 * (p.groups + 1)) none
    match p.run text (p.fuelFor text) tried [⟨p.start, place, blank⟩] with
    | (some slots, _) =>
      match (slots[0]?).join, (slots[1]?).join with
      | some first, some last => some { first, last, slots }
      | _, _ => none
    | (none, tried) =>
      match count with
      | 0 => none
      | count + 1 => findFrom p text count (place + 1) tried

def find? (p : Program) (text : Array Char) (place : Nat) : Option Match :=
  if place ≤ text.size then
    p.findFrom text (text.size - place) place
      (Array.replicate (p.code.size * (text.size + 1)) false)
  else none

def isMatch (p : Program) (text : Array Char) : Bool :=
  (p.find? text 0).isSome

end Program

end ExtensionLowering.Pattern
