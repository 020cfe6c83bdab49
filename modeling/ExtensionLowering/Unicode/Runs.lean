/-!
# Run-length tables

Properties of code points are kept as texts of runs, each a label of two characters, the first a
capital, and its length in base sixteen if that is not one. The runs of a table follow one another
from the first code point on. Where two labels alternate from one code point to the next, as those
of letters in pairs do, both are written before the number of pairs, the second in small letters.
Other tables are texts of rows of numbers, which stand between points.
-/
namespace ExtensionLowering.Unicode

abbrev Range := Nat × Nat

structure Run where
  label : String
  first : Nat
  last : Nat
  deriving Repr

def hexDigitValue (c : Char) : Nat :=
  if c.isDigit then c.toNat - '0'.toNat else c.toNat - 'a'.toNat + 10

def hexValue (cs : List Char) : Nat :=
  cs.foldl (fun n c => 16 * n + hexDigitValue c) 0

def table (lines : List String) : List (List Nat) :=
  (lines.flatMap (·.splitOn " ")).map fun row => (row.splitOn ".").map fun n => hexValue n.toList

def lengthOf (digits : List Char) : Nat :=
  if digits.isEmpty then 1 else hexValue digits

def runsFrom : Nat → List (List Char) → List Run
  | _, [] => []
  | first, w :: ws =>
    let next := first + lengthOf (w.drop 2)
    ⟨String.ofList (w.take 2), first, next - 1⟩ :: runsFrom next ws

/-- Writes out the runs of one code point that pairs of labels stand for. -/
def pairs (w : List Char) : List (List Char) :=
  match w with
  | a :: b :: c :: d :: count =>
    if 'f' < c then (List.replicate (lengthOf count) [[a, b], [c.toUpper, d]]).flatten else [w]
  | _ => [w]

def runs (lines : List String) : List Run :=
  runsFrom 0 (lines.flatMap fun l => (l.toList.splitBy fun _ c => ! c.isUpper).flatMap pairs)

def rangesOf (table : List Run) (labels : List String) : List Range :=
  (table.filter fun r => labels.contains r.label).map fun r => (r.first, r.last)

end ExtensionLowering.Unicode
