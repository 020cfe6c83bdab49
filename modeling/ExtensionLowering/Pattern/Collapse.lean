import ExtensionLowering.Pattern.Basic
/-!
# Putting expressions together

Expressions are kept flat: there is no sequence inside a sequence and no alternative inside an
alternative. Beginnings that neighbouring alternatives share are taken out, and neighbours of one
character become a set. An expression must not grow too deep or too large on the way. Its size is
looked at only when the number of expressions made, times the rounds of all repetitions met, comes
near to the limit; a meter keeps both.
-/
namespace ExtensionLowering.Pattern

def maxHeight : Nat := 1000

def maxSize : Nat := 3355443

def maxCodes : Nat := 33554432

structure Meter where
  /-- The number of expressions made. One that is not used any more serves again. -/
  made : Nat := 0
  spare : Nat := 0
  /-- The rounds of the repetitions met, multiplied, but at most the greatest size. -/
  rounds : Nat := 1
  codes : Nat := 0
  sizes : Bool := false
  deriving Repr, DecidableEq

namespace Meter

def make (m : Meter) : Meter :=
  if m.spare = 0 then { m with made := m.made + 1 } else { m with spare := m.spare - 1 }

def release (m : Meter) (count : Nat) : Meter :=
  { m with spare := m.spare + count }

def meet (m : Meter) : Regex → Meter
  | .counted min max _ _ =>
    let n := Nat.max 1 (max.getD min)
    { m with rounds := if maxSize / m.rounds < n then maxSize else m.rounds * n }
  | _ => m

def isNear (m : Meter) : Bool :=
  maxSize / m.rounds ≤ m.made

end Meter

abbrev Build := StateT Meter (Except FaultKind)

namespace Build

def make : Build Unit := modify Meter.make

def release (count : Nat) : Build Unit := modify (·.release count)

/-- Refuses an expression that is too large or too deep. When sizes come into view, those of the
expressions that wait to be put together are looked at as well. -/
def check (waiting : List Regex) (r : Regex) : Build Unit := do
  let m ← get
  if maxCodes < m.codes then throw .tooLarge
  if m.sizes then
    if maxSize < r.size then throw .tooLarge
  else
    let m := m.meet r
    set { m with sizes := m.isNear && ! waiting.isEmpty }
    if m.isNear && (r :: waiting).any (maxSize < ·.size) then throw .tooLarge
  if maxHeight < r.height then throw .tooDeep

end Build

namespace Regex

def concatParts : Regex → List Regex
  | .concat ps => ps
  | r => [r]

def alternateParts : Regex → List Regex
  | .alternate ps => ps
  | r => [r]

def concatOf : List Regex → Regex
  | [r] => r
  | ps => .concat (ps.flatMap concatParts)

/-! ### Sets of characters -/

def isAny : Regex → Bool
  | .any _ => true
  | _ => false

/-- A set of all characters, or of all but the line feed, becomes an expression of its own. -/
def tidy : Regex → Regex
  | .chars set =>
    if set = .all then .any true
    else if set = .notNewline then .any false
    else .chars set
  | r => r

def sameLiteral : Regex → Regex → Bool
  | .literal o codes, .literal p others => o = p && codes = others
  | _, _ => false

def unite (r : Regex) (rs : List Regex) : Regex :=
  if rs.all r.sameLiteral then r
  else
    let set : CharSet := ((r :: rs).filterMap set?).flatten
    if (r :: rs).any isAny then .any (set.contains 10) else .chars set.normal

/-! ### Beginnings of literals -/

def commonStart : List Nat → List Nat → List Nat
  | a :: as, b :: bs => if a = b then a :: commonStart as bs else []
  | _, _ => []

/-- The characters an expression begins with, and whether case does not count for them. -/
def leadingCodes : Regex → Bool × List Nat
  | .literal o codes => (o.foldCase, codes)
  | .concat (.literal o codes :: _) => (o.foldCase, codes)
  | _ => (false, [])

def dropCodes (n : Nat) (o : Options) (codes : List Nat) : Option Regex :=
  if (codes.drop n).isEmpty then none else some (.literal o (codes.drop n))

def dropLeadingCodes (n : Nat) : Regex → Regex
  | .literal o codes => (dropCodes n o codes).getD .empty
  | .concat (.literal o codes :: ps) =>
    match dropCodes n o codes, ps with
    | some r, ps => .concat (r :: ps)
    | none, [p] => p
    | none, ps => .concat ps
  | r => r

structure LiteralRun where
  foldCase : Bool := false
  codes : List Nat := []
  members : List Regex := []

/-- Neighbours that begin with the same characters, behind those of a run, which are in reverse. -/
def literalRuns (run : LiteralRun) : List Regex → List LiteralRun
  | [] => [{ run with members := run.members.reverse }]
  | r :: rs =>
    let (foldCase, codes) := r.leadingCodes
    let common := commonStart run.codes codes
    if foldCase = run.foldCase && ! common.isEmpty then
      literalRuns { run with codes := common, members := r :: run.members } rs
    else
      { run with members := run.members.reverse } :: literalRuns { foldCase, codes, members := [r] } rs

/-! ### Beginnings of one character -/

/-- Do two expressions of one character, or of a fixed number of them, look the same? -/
def looksLike : Regex → Regex → Bool
  | .literal _ codes, .literal _ others => codes = others
  | .chars set, .chars other => set = other
  | .any a, .any b => a = b
  | .counted min max greedy r, .counted min' max' greedy' r' =>
    min = min' && max = max' && greedy = greedy' && r.looksLike r'
  | _, _ => false

def factors : Regex → Bool
  | .counted min max _ r => max = some min && r.set?.isSome
  | r => r.set?.isSome

def leading? : Regex → Option Regex
  | .empty => none
  | .concat (.empty :: _) => none
  | .concat (p :: _) => some p
  | r => some r

def dropLeading : Regex → Regex
  | .concat [_, p] => p
  | .concat (_ :: ps) => if ps.isEmpty then .empty else .concat ps
  | _ => .empty

/-- Neighbours that begin with the same part, behind those of a run, which are in reverse. -/
def partRuns (first : Option Regex) (members : List Regex) :
    List Regex → List (Option Regex × List Regex)
  | [] => [(first, members.reverse)]
  | r :: rs =>
    let same := match first, r.leading? with
      | some p, some q => p.looksLike q && p.factors
      | _, _ => false
    if same then partRuns first (r :: members) rs
    else (first, members.reverse) :: partRuns r.leading? [r] rs

/-! ### Alternatives -/

/-- Unites neighbours of one character, behind those of a run, which are in reverse. -/
def uniteRuns (run : List Regex) : List Regex → List Regex
  | [] => united run
  | r :: rs => if r.set?.isSome then uniteRuns (r :: run) rs else united run ++ r :: uniteRuns [] rs
where
  united (run : List Regex) : List Regex :=
    match run.reverse with
    | [] => []
    | [r] => [r]
    | r :: rs => [(unite r rs).tidy]

def isEmpty : Regex → Bool
  | .empty => true
  | _ => false

/-- Of neighbours that match only the empty text the last one is kept. -/
def dropEmpties : List Regex → List Regex
  | r :: s :: rs => if r.isEmpty && s.isEmpty then dropEmpties (s :: rs) else r :: dropEmpties (s :: rs)
  | rs => rs

/-- The number of expressions given up when the first `n` characters are taken from one. -/
def releasedWithCodes (n : Nat) : Regex → Nat
  | .concat (.literal _ codes :: ps) =>
    if codes.length ≤ n then (if ps.length = 1 then 2 else 1) else 0
  | _ => 0

/-- Takes the part that members of a run begin with from one of them, of which the first keeps it. -/
def takeLeading (isFirst : Bool) (r : Regex) : Build Regex := do
  if ! isFirst then Build.release 1
  match r with
  | .concat [_, _] => Build.release 1
  | .concat _ => pure ()
  | _ => Build.make
  return r.dropLeading

/-- The number of expressions given up when alternatives become flat. -/
def nested (rs : List Regex) : Nat :=
  (rs.filter fun r => match r with
    | .alternate _ => true
    | _ => false).length

mutual

def alternateOf : Nat → List Regex → Build Regex
  | _, [r] => return r
  | 0, rs => return .alternate rs
  | fuel + 1, rs => do
    Build.make
    Build.release (nested rs)
    match ← factor fuel (rs.flatMap alternateParts) with
    | [r] =>
      Build.release 1
      return r
    | rs => return .alternate rs

def factor : Nat → List Regex → Build (List Regex)
  | 0, rs => return rs
  | fuel + 1, rs => do
    let rs ← (literalRuns {} rs).mapM fun run => do
      match run.members with
      | [] => return []
      | [r] => return [r]
      | members =>
        Build.make
        let rs ← members.mapM fun r => do
          Build.release (r.releasedWithCodes run.codes.length)
          let r := r.dropLeadingCodes run.codes.length
          Build.check [] r
          return r
        let rest ← alternateOf fuel rs
        Build.make
        return [.concat [.literal { foldCase := run.foldCase } run.codes, rest]]
    let rs ← (partRuns none [] rs.flatten).mapM fun (first, members) => do
      match first, members with
      | _, [r] => return [r]
      | some first, r :: rs =>
        let r ← takeLeading true r
        Build.check [] r
        let rs ← rs.mapM fun r => do
          let r ← takeLeading false r
          Build.check [] r
          return r
        let rest ← alternateOf fuel (r :: rs)
        Build.make
        return [.concat [first, rest]]
      | _, rs => return rs
    let united := uniteRuns [] rs.flatten
    Build.release (rs.flatten.length - united.length)
    return dropEmpties united

end

/-- Alternatives as one expression. Every beginning that is taken out makes what remains smaller. -/
def alternation (rs : List Regex) : Build Regex :=
  alternateOf (2 * (sizes rs + rs.length + 1)) rs

def sequenceOf (rs : List Regex) : Build Regex := do
  if rs.length ≠ 1 then
    Build.make
    Build.release (rs.filter fun r => match r with
      | .concat _ => true
      | _ => false).length
  return concatOf rs

end Regex

end ExtensionLowering.Pattern
