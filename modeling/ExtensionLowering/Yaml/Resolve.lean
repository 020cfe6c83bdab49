import ExtensionLowering.Text.Base64
import ExtensionLowering.Text.Utf8
import ExtensionLowering.Yaml.Mark
import ExtensionLowering.Yaml.Time
/-!
# What scalars stand for

A plain scalar without a tag is null, a truth value, an integer, a float, a point in time or text,
told by its spelling. Tags are written with `!!` in front when they belong to the format itself.
-/
namespace ExtensionLowering.Yaml

namespace Tag

def null : String := "!!null"
def bool : String := "!!bool"
def int : String := "!!int"
def float : String := "!!float"
def timestamp : String := "!!timestamp"
def str : String := "!!str"
def binary : String := "!!binary"
def merge : String := "!!merge"
def seq : String := "!!seq"
def map : String := "!!map"

/-- What the tags of the format itself start with when written in full. -/
def stem : String := "tag:yaml.org,2002:"

def short (tag : String) : String :=
  if stem.toList.isPrefixOf tag.toList then
    "!!" ++ String.ofList (tag.toList.drop stem.length)
  else tag

end Tag

/-- What a scalar stands for. Floats are kept as they are spelled. -/
inductive Scalar where
  | null
  | bool (value : Bool)
  | int (value : Int)
  | float (text : String)
  | time (value : Time)
  | text (text : String)
  /-- Text given by its octets, which need not be well formed. -/
  | binary (octets : List Nat)
  deriving Repr, DecidableEq

namespace Scalar

def tag : Scalar → String
  | .null => Tag.null
  | .bool _ => Tag.bool
  | .int _ => Tag.int
  | .float _ => Tag.float
  | .time _ => Tag.timestamp
  | .text _ => Tag.str
  | .binary _ => Tag.binary

end Scalar

def word? (text : String) : Option Scalar :=
  if ["", "~", "null", "Null", "NULL"].contains text then some .null
  else if ["true", "True", "TRUE"].contains text then some (.bool true)
  else if ["false", "False", "FALSE"].contains text then some (.bool false)
  else if [".nan", ".NaN", ".NAN", ".inf", ".Inf", ".INF", "+.inf", "+.Inf", "+.INF",
      "-.inf", "-.Inf", "-.INF"].contains text then some (.float text)
  else none

def digitValue? (c : Char) : Option Nat :=
  if c.isDigit then some (c.toNat - 0x30)
  else if 'a' ≤ c.toLower ∧ c.toLower ≤ 'f' then some (c.toLower.toNat - 0x61 + 10)
  else none

def numeral? (base : Nat) (digits : List Char) : Option Nat := do
  if digits.isEmpty then none
  else
    let values ← digits.mapM digitValue?
    if values.all (· < base) then some (values.foldl (fun n d => n * base + d) 0) else none

def unsigned? : List Char → Option Nat
  | '0' :: x :: rest =>
    if x = 'x' ∨ x = 'X' then numeral? 16 rest
    else if x = 'b' ∨ x = 'B' then numeral? 2 rest
    else if x = 'o' ∨ x = 'O' then numeral? 8 rest
    else numeral? 8 (x :: rest)
  | digits => numeral? 10 digits

def signedLimit : Nat := 9223372036854775808

def unsignedLimit : Nat := 18446744073709551616

/-- An integer of 64 bits with a sign in front of the numeral. Without a sign it may be greater. -/
def signed? (numeral? : List Char → Option Nat) : List Char → Option Int
  | '-' :: rest => ((numeral? rest).filter (· ≤ signedLimit)).map fun n => -(n : Int)
  | '+' :: rest => ((numeral? rest).filter (· < signedLimit)).map fun n => (n : Int)
  | rest => ((numeral? rest).filter (· < unsignedLimit)).map fun n => (n : Int)

def splitSign : List Char → List Char
  | '-' :: rest => rest
  | '+' :: rest => rest
  | rest => rest

/-- The parts of a decimal: whole and broken digits and the exponent, with the text behind them. -/
def decimal? (text : List Char) : Option (List Char × List Char × Int) := do
  let whole := text.takeWhile Char.isDigit
  let rest := text.drop whole.length
  let (part, rest) := match rest with
    | '.' :: more => (more.takeWhile Char.isDigit, more.dropWhile Char.isDigit)
    | _ => ([], rest)
  if whole.isEmpty && part.isEmpty then none
  else
    match rest with
    | [] => some (whole, part, 0)
    | e :: more =>
      if e = 'e' ∨ e = 'E' then
        let n ← numeral? 10 (splitSign more)
        some (whole, part, if more.head? = some '-' then -n else n)
      else none

def isFiniteDecimal (whole part : List Char) (exponent : Int) : Bool :=
  let digits := (whole ++ part).dropWhile (· = '0')
  let value : Nat := digits.foldl (fun n d => n * 10 + (d.toNat - 0x30)) 0
  let shift := exponent - part.length
  if value = 0 then true
  else if digits.length + shift > 400 then false
  else if digits.length + shift < 0 then true
  else
    let bound : Nat := Nat.pow 2 1024 - Nat.pow 2 970
    if shift ≥ 0 then value * Nat.pow 10 shift.toNat < bound
    else value < bound * Nat.pow 10 (-shift).toNat

def isFloat (text : List Char) : Bool :=
  match decimal? (splitSign text) with
  | none => false
  | some (whole, part, exponent) => isFiniteDecimal whole part exponent

/-- A binary or octal numeral behind a sign, which the general rule for integers leaves out. -/
def signedBehindBase? : List Char → Option Int
  | '0' :: 'b' :: rest => signed? (numeral? 2) rest
  | '0' :: 'o' :: rest => signed? (numeral? 8) rest
  | _ => none

/-- Does every underscore stand between two digits? The flag tells whether a digit comes before. -/
def isPartedFrom : Bool → List Char → Bool
  | _, [] => true
  | digit, '_' :: rest => digit && rest.head?.any Char.isDigit && isPartedFrom false rest
  | _, c :: rest => isPartedFrom c.isDigit rest

def isParted (text : List Char) : Bool :=
  isPartedFrom false text

/-- What a plain scalar stands for. A scalar that starts with a letter or a tilde is a word of its own
or text; one that starts with a point may be a float, in which underscores part digits; one that starts
with a digit or a sign may be a number, with underscores anywhere, and a time only where `timed`. -/
def plain (timed : Bool) (text : String) : Scalar :=
  let chars := text.toList
  let digits := chars.filter (· ≠ '_')
  match chars with
  | [] => .null
  | c :: _ =>
    if "yYnNtTfFoO~".toList.contains c then (word? text).getD (.text text)
    else if c = '.' then
      (word? text).getD (if isParted chars && isFloat digits then .float text else .text text)
    else if c.isDigit || c = '+' || c = '-' then
      match word? text with
      | some s => s
      | none =>
        match (Time.ofChars? chars).filter fun _ => timed with
        | some t => .time t
        | none =>
          match signed? unsigned? digits with
          | some n => .int n
          | none =>
            if isFloat digits then .float text
            else ((signedBehindBase? digits).map Scalar.int).getD (.text text)
    else .text text

def plainTag (timed : Bool) (text : String) : String :=
  if text = "<<" then Tag.merge else (plain timed text).tag

def Tag.isSpelled (tag : String) : Bool :=
  [Tag.null, Tag.bool, Tag.int, Tag.float, Tag.timestamp].contains tag

/-- What a scalar with a tag stands for. Its spelling must agree with the tag; of integers only those
of 64 bits with a sign are floats. -/
def resolve (tag text : String) : Except Problem Scalar :=
  if tag = Tag.binary then
    match Text.decodeBase64? text with
    | some octets => .ok (.binary octets)
    | none => .error .badBase64
  else if ! Tag.isSpelled tag then .ok (.text text)
  else
    let found := plain (tag = Tag.timestamp) text
    let mismatch := Problem.tagMismatch (plainTag (tag = Tag.timestamp) text) text tag
    match found with
    | .int n =>
      if tag = Tag.int then .ok found
      else if tag = Tag.float ∧ n < signedLimit then .ok (.float text)
      else .error mismatch
    | found => if found.tag = tag then .ok found else .error mismatch

end ExtensionLowering.Yaml
