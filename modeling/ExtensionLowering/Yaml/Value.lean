import ExtensionLowering.Decimal.Shortest
import ExtensionLowering.Text.Quoted
import ExtensionLowering.Yaml.Resolve
/-!
# Values

What nodes stand for when nothing is known about their place, and how messages show them.
-/
namespace ExtensionLowering.Yaml

inductive Value where
  | scalar (s : Scalar)
  | sequence (items : List Value)
  /-- Entries in the order they were set. In a `named` mapping all keys are text. -/
  | mapping (named : Bool) (entries : List (Value × Value))
  deriving Repr, Inhabited

namespace Value

def isScalar : Value → Bool
  | .scalar _ => true
  | _ => false

def scalar? : Value → Option Scalar
  | .scalar s => some s
  | _ => none

end Value

namespace Scalar

def text? : Scalar → Option String
  | .text s => some s
  | .binary octets => some (Text.ofBytes octets)
  | _ => none

def octets? : Scalar → Option (List Nat)
  | .binary octets => some octets
  | _ => none

/-- Octets as the text they stand for, if they are well formed; other scalars as they are. -/
def asText : Scalar → Scalar
  | .binary octets =>
    if (Text.charsOrStrays octets).all (·.isOk) then .text (Text.ofBytes octets) else .binary octets
  | s => s

def double (s : String) : Float :=
  let chars := s.toList.filter (· ≠ '_')
  let x : Float :=
    match decimal? (splitSign chars) with
    | some (whole, part, exponent) =>
      let digits := (whole ++ part).foldl (fun n d => n * 10 + (d.toNat - 0x30)) 0
      let shift := exponent - part.length
      if shift + (whole ++ part).length < -400 then 0.0
      else Float.ofScientific digits (shift < 0) shift.natAbs
    | none => if [".nan", ".NaN", ".NAN"].contains s then 0.0 / 0.0 else 1.0 / 0.0
  if chars.head? = some '-' then -x else x

/-- How messages show a scalar inside a collection. Integers that need all 64 bits are shown in base
sixteen. -/
def shown : Scalar → String
  | .null => "interface \x7b\x7d(nil)"
  | .bool b => toString b
  | .int n =>
    if signedLimit ≤ n then "0x" ++ String.ofList (Nat.toDigits 16 n.toNat) else toString n
  | .float s => Decimal.generalOfFloat (double s)
  | .time t => t.shown
  | .text s => Text.quoteDebug s
  | .binary octets => Text.quoteDebugBytes octets

/-- Do messages show one key before another? Keys of different kinds have no order, but null comes
first. -/
def isBefore : Scalar → Scalar → Bool
  | .text a, .text b => a < b
  | .int a, .int b => a < b
  | .float a, .float b => double a < double b
  | .bool a, .bool b => ! a && b
  | .null, b => b ≠ .null
  | _, _ => false

end Scalar

namespace Value

/-- Do messages show the entry of one key before that of another? -/
def isBefore : Value → Value → Bool
  | .scalar a, .scalar b => a.asText.isBefore b.asText
  | _, _ => false

def sortEntries (entries : List (Value × String)) : List (Value × String) :=
  entries.mergeSort fun a b => ! b.1.isBefore a.1

mutual

def shown : Value → String
  | .scalar s => s.shown
  | .sequence items => "[]interface \x7b\x7d\x7b" ++ ", ".intercalate (shownAll items) ++ "\x7d"
  | .mapping named entries =>
    "map[" ++ (if named then "string" else "interface \x7b\x7d") ++ "]interface \x7b\x7d\x7b" ++
      ", ".intercalate ((sortEntries (shownEntries entries)).map (·.2)) ++ "\x7d"

def shownAll : List Value → List String
  | [] => []
  | v :: vs => v.shown :: shownAll vs

def shownEntries : List (Value × Value) → List (Value × String)
  | [] => []
  | (k, v) :: rest => (k, k.shown ++ ":" ++ v.shown) :: shownEntries rest

end

end Value

end ExtensionLowering.Yaml
