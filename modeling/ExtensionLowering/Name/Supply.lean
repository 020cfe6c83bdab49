import ExtensionLowering.Tree.Build
import ExtensionLowering.Tree.Walk
/-!
# Fresh names

A supply hands out names `base_N` that occur nowhere else in a file. The number is the least one
above the last number of that base for which the name is free. Every identifier that is handed out
has a mark of its own, by which its occurrences are told from names that merely read alike.
-/
namespace ExtensionLowering

structure NameSupply where
  taken : List String := []
  /-- The number last given out for a base, latest first. -/
  counters : List (String × Nat) := []
  issued : Nat := 0
  deriving Repr

def numbered (base : String) (n : Nat) : String :=
  base ++ "_" ++ toString n

namespace NameSupply

def reserve (s : NameSupply) (n : Node) : NameSupply :=
  { s with taken := n.idents.map (·.name) ++ s.taken }

def last (s : NameSupply) (base : String) : Nat :=
  (s.counters.lookup base).getD 0

/-- The least number from `n` on whose name is free, looked for among `fuel + 1` candidates. -/
def firstFree (taken : List String) (base : String) : Nat → Nat → Nat
  | 0, n => n
  | fuel + 1, n => if taken.contains (numbered base n) then firstFree taken base fuel (n + 1) else n

/-- The number the next name of `base` gets. One more candidate than there are taken names is
enough. -/
def nextIndex (s : NameSupply) (base : String) : Nat :=
  firstFree s.taken base s.taken.length (s.last base + 1)

def tag (s : NameSupply) (id : Ident) : Ident × NameSupply :=
  ({ id with mark := some s.issued }, { s with issued := s.issued + 1 })

def next (s : NameSupply) (base : String) : Ident × NameSupply :=
  let n := s.nextIndex base
  let name := numbered base n
  tag { s with taken := name :: s.taken, counters := (base, n) :: s.counters } (.synthetic name)

end NameSupply

end ExtensionLowering
