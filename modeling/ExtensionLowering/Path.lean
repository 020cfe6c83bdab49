/-!
# Slash-separated paths

A path is kept in its shortest equivalent form: no empty and no `.` segments, and `..` only at the
front of a path that does not start at the root. Where an absolute path is needed, a path that does
not start at the root is taken from a working directory.
-/
namespace ExtensionLowering

structure Path where
  rooted : Bool
  segs : List String
  deriving Repr, DecidableEq

namespace Path

def pieces : List Char → List (List Char)
  | [] => [[]]
  | c :: cs =>
    if c = '/' then [] :: pieces cs
    else
      match pieces cs with
      | [] => [[c]]
      | p :: ps => (c :: p) :: ps

def push (rooted : Bool) (stack : List String) (seg : String) : List String :=
  if seg = "" ∨ seg = "." then stack
  else if seg = ".." then
    match stack with
    | [] => if rooted then [] else [".."]
    | top :: below => if top = ".." then ".." :: top :: below else below
  else seg :: stack

def ofString (s : String) : Path :=
  let rooted := s.toList.head? = some '/'
  let segs := (pieces s.toList).map String.ofList
  { rooted, segs := (segs.foldl (push rooted) []).reverse }

protected def toString (p : Path) : String :=
  let body := "/".intercalate p.segs
  if p.rooted then "/" ++ body else if p.segs.isEmpty then "." else body

/-- The shortest equivalent spelling. -/
def clean (s : String) : String :=
  (ofString s).toString

def isRooted (s : String) : Bool :=
  s.toList.head? = some '/'

def absolute (here s : String) : Path :=
  if isRooted s then ofString s else ofString (here ++ "/" ++ s)

def directoryPart (s : String) : String :=
  String.ofList (s.toList.reverse.dropWhile (· ≠ '/')).reverse

def directory (s : String) : String :=
  clean (directoryPart s)

/-- Both texts joined by a slash; an empty one is left out. -/
def join (dir name : String) : String :=
  if dir = "" ∧ name = "" then ""
  else if dir = "" then clean name
  else if name = "" then clean dir
  else clean (dir ++ "/" ++ name)

def diverge : List String → List String → List String × List String
  | a :: as, b :: bs => if a = b then diverge as bs else (a :: as, b :: bs)
  | as, bs => (as, bs)

def relativeTo (target base : Path) : Path :=
  let (up, down) := diverge base.segs target.segs
  { rooted := false, segs := List.replicate up.length ".." ++ down }

/-- A rooted path given by its segments, the last one first, and the directories above it up to the
root. -/
def lineage : List String → List Path
  | [] => [⟨true, []⟩]
  | s :: above => ⟨true, (s :: above).reverse⟩ :: lineage above

def ancestors (p : Path) : List Path :=
  lineage p.segs.reverse

end Path

end ExtensionLowering
