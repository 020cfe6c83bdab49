import ExtensionLowering.Unicode.CaseFold
import ExtensionLowering.Unicode.Script
/-!
# Sets of characters

Sets of code points as lists of inclusive ranges, in any order and possibly overlapping, with the
named sets that patterns may use.
-/
namespace ExtensionLowering.Pattern

abbrev CharSet := List Unicode.Range

namespace CharSet

def lastCode : Nat := 0x10ffff

def single (n : Nat) : CharSet := [(n, n)]

def all : CharSet := [(0, lastCode)]

def contains (s : CharSet) (n : Nat) : Bool :=
  s.any fun (lo, hi) => lo ≤ n && n ≤ hi

def gaps : Nat → List Unicode.Range → CharSet
  | start, [] => if start ≤ lastCode then [(start, lastCode)] else []
  | start, (lo, hi) :: rest =>
    (if start < lo then [(start, lo - 1)] else []) ++ gaps (max start (hi + 1)) rest

def sorted (s : CharSet) : CharSet :=
  s.mergeSort fun a b => a.1 ≤ b.1

def complement (s : CharSet) : CharSet :=
  gaps 0 s.sorted

/-- Joins ranges in increasing order that touch one another, the first of them being `lo` to `hi`. -/
def joinFrom (lo hi : Nat) : List Unicode.Range → CharSet
  | [] => [(lo, hi)]
  | (a, b) :: rest =>
    if a ≤ hi + 1 then joinFrom lo (max hi b) rest else (lo, hi) :: joinFrom a b rest

def normal (s : CharSet) : CharSet :=
  match s.sorted with
  | [] => []
  | (lo, hi) :: rest => joinFrom lo hi rest

def notNewline : CharSet := [(0, 9), (11, lastCode)]

def foldClosure (s : CharSet) : CharSet :=
  s ++ (Unicode.foldable.filter fun n => (Unicode.foldClass n).any s.contains).map fun n => (n, n)

def digit : CharSet := [(0x30, 0x39)]

def blank : CharSet := [(0x09, 0x0a), (0x0c, 0x0d), (0x20, 0x20)]

def word : CharSet := [(0x30, 0x39), (0x41, 0x5a), (0x5f, 0x5f), (0x61, 0x7a)]

def bracketed? : String → Option CharSet
  | "alnum" => some [(0x30, 0x39), (0x41, 0x5a), (0x61, 0x7a)]
  | "alpha" => some [(0x41, 0x5a), (0x61, 0x7a)]
  | "ascii" => some [(0x00, 0x7f)]
  | "blank" => some [(0x09, 0x09), (0x20, 0x20)]
  | "cntrl" => some [(0x00, 0x1f), (0x7f, 0x7f)]
  | "digit" => some digit
  | "graph" => some [(0x21, 0x7e)]
  | "lower" => some [(0x61, 0x7a)]
  | "print" => some [(0x20, 0x7e)]
  | "punct" => some [(0x21, 0x2f), (0x3a, 0x40), (0x5b, 0x60), (0x7b, 0x7e)]
  | "space" => some [(0x09, 0x0d), (0x20, 0x20)]
  | "upper" => some [(0x41, 0x5a)]
  | "word" => some word
  | "xdigit" => some [(0x30, 0x39), (0x41, 0x46), (0x61, 0x66)]
  | _ => none

def canonicalName (name : String) : String :=
  String.ofList ((name.toList.filter fun c => !(c == '_' || c == '-' || c == ' ')).map Char.toLower)

def lookupName (table : List (String × String)) (name : String) : Option String :=
  (table.find? fun e => canonicalName e.1 == name).map (·.2)

def category? (name : String) : Option CharSet :=
  let members := (Unicode.categoryMembers.find? fun e => canonicalName e.1 == name).or
    ((lookupName Unicode.categoryAliases name).bind fun short =>
      Unicode.categoryMembers.find? fun e => e.1 == short)
  members.map fun e => Unicode.rangesOf Unicode.categoryRuns e.2

def script? (name : String) : Option CharSet :=
  (lookupName Unicode.scriptLabels name).map Unicode.scriptRanges

/-- The code points with a named property: a category, a script or one of a few special sets. -/
def property? (name : String) : Option CharSet :=
  let name := canonicalName name
  match name with
  | "any" => some all
  | "ascii" => some [(0x00, 0x7f)]
  | "assigned" => (category? "cn").map complement
  | _ => (category? name).or (script? name)

/-- Is a property closed under folding where case does not count? The cased letters are not, although
the letters of each case are. -/
def propertyFolds (name : String) : Bool :=
  ! ["lc", "casedletter"].contains (canonicalName name)

end CharSet

end ExtensionLowering.Pattern
