/-!
# Shortest decimals

The shortest decimal that reads back as a given double, written positionally (no exponent, no point
when there is no fraction) or with an exponent when it is large or small. The sign of a negative zero
is kept. Everything is done in exact natural number arithmetic on `mantissa * 2 ^ exponent`.
-/
namespace ExtensionLowering.Decimal

/-- A positive double `mantissa * 2 ^ exponent`. At a `boundary` the next smaller double is half as
far away as the next larger one. -/
structure Dyadic where
  mantissa : Nat
  exponent : Int
  boundary : Bool
  deriving Repr, DecidableEq

/-- A decimal `digits * 10 ^ exponent`. -/
structure Scaled where
  digits : Nat
  exponent : Int
  deriving Repr, DecidableEq

def twoTo (exponent : Nat) : Nat := Nat.pow 2 exponent

def tenTo (exponent : Nat) : Nat := Nat.pow 10 exponent

/-- `n * 2 ^ two / 10 ^ ten` as numerator and denominator. -/
def fraction (n : Nat) (two ten : Int) : Nat × Nat :=
  (n * twoTo two.toNat * tenTo (-ten).toNat, twoTo (-two).toNat * tenTo ten.toNat)

namespace Dyadic

/-- Whether `c * 10 ^ p` reads back as `x`: it lies between the middles to the neighbours, which
count when the mantissa is even. -/
def reads (x : Dyadic) (p : Int) (c : Nat) : Bool :=
  let (lowNum, lowDen) := fraction (4 * x.mantissa - if x.boundary then 1 else 2) (x.exponent - 2) p
  let (highNum, highDen) := fraction (4 * x.mantissa + 2) (x.exponent - 2) p
  if x.mantissa % 2 = 0 then lowNum ≤ c * lowDen && c * highDen ≤ highNum
  else lowNum < c * lowDen && c * highDen < highNum

/-- The number of places before the point, negative when zeros follow it:
`10 ^ (e - 1) ≤ x < 10 ^ e`. -/
def places (x : Dyadic) : Int :=
  let (num, den) := fraction x.mantissa x.exponent 0
  if den ≤ num then (Nat.toDigits 10 (num / den)).length
  else
    match (List.range 400).find? fun k => den ≤ num * tenTo k with
    | some k => 1 - (k : Int)
    | none => 0

/-- The neighbour of `x` on the grid of multiples of `10 ^ p` that reads back as `x`; of two, the
nearer, and of two equally near the even one. -/
def onGrid? (x : Dyadic) (p : Int) : Option Nat :=
  let (num, den) := fraction x.mantissa x.exponent p
  let low := num / den
  let rest := num % den
  match x.reads p low, x.reads p (low + 1) with
  | true, true =>
    if 2 * rest < den then some low
    else if den < 2 * rest then some (low + 1)
    else if low % 2 = 0 then some low else some (low + 1)
  | true, false => some low
  | false, true => some (low + 1)
  | false, false => none

/-- The shortest decimal that reads back as `x`. Seventeen digits always do. -/
def shortest (x : Dyadic) : Scaled :=
  let e := x.places
  match (List.range 18).findSome? fun (n : Nat) =>
      (x.onGrid? (e - (n : Int))).map fun c => (⟨c, e - (n : Int)⟩ : Scaled) with
  | some s => s
  | none => ⟨0, 0⟩

end Dyadic

def Scaled.positional (s : Scaled) : String :=
  let ds := Nat.toDigits 10 s.digits
  if 0 ≤ s.exponent then String.ofList (ds ++ List.replicate s.exponent.toNat '0')
  else
    let n := (-s.exponent).toNat
    let padded := List.replicate (n + 1 - ds.length) '0' ++ ds
    let whole := padded.take (padded.length - n)
    let part := ((padded.drop (padded.length - n)).reverse.dropWhile (· == '0')).reverse
    String.ofList (if part.isEmpty then whole else whole ++ '.' :: part)

/-- The digits of a decimal without an exponent from 0.0001 to below a million, and with an exponent
of at least two digits elsewhere. -/
def Scaled.general (s : Scaled) : String :=
  let ds := ((Nat.toDigits 10 s.digits).reverse.dropWhile (· == '0')).reverse
  let exponent : Int := (Nat.toDigits 10 s.digits).length + s.exponent - 1
  if -4 ≤ exponent ∧ exponent < 6 then s.positional
  else
    let power := Nat.toDigits 10 exponent.natAbs
    String.ofList (ds.take 1 ++ (if ds.length ≤ 1 then [] else '.' :: ds.drop 1) ++ ['e'] ++
      [if exponent < 0 then '-' else '+'] ++ List.replicate (2 - power.length) '0' ++ power)

def write (positive : Scaled → String) (x : Float) : String :=
  let bits := x.toBits.toNat
  let negative := bits / twoTo 63 = 1
  let biased : Nat := bits / twoTo 52 % twoTo 11
  let part : Nat := bits % twoTo 52
  if biased = 2047 then
    if part ≠ 0 then "NaN" else if negative then "-Inf" else "+Inf"
  else
    let sign := if negative then "-" else ""
    if biased = 0 ∧ part = 0 then sign ++ "0"
    else
      let d : Dyadic :=
        if biased = 0 then ⟨part, -1074, false⟩
        else ⟨twoTo 52 + part, (biased : Int) - 1075, part = 0 ∧ 1 < biased⟩
      sign ++ positive d.shortest

def ofFloat (x : Float) : String :=
  write Scaled.positional x

/-- The text of a double, with an exponent when it is large or small. -/
def generalOfFloat (x : Float) : String :=
  write Scaled.general x

end ExtensionLowering.Decimal
