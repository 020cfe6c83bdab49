import ExtensionLowering.Yaml.Mark
/-!
# The characters of a document

A document is UTF-8 unless a byte order mark says otherwise. It is decoded in portions of so many
octets, each only when its characters are asked for, so that malformed octets and control characters
are refused no earlier than their portion is reached. A character that a portion cuts off belongs to
the next one.
-/
namespace ExtensionLowering.Yaml

inductive Encoding where
  | utf8
  | utf16 (littleEndian : Bool)
  deriving Repr, DecidableEq

/-- The encoding a byte order mark announces, and what stands behind the mark. -/
def Encoding.detect : List Nat → Encoding × List Nat
  | 0xff :: 0xfe :: rest => (.utf16 true, rest)
  | 0xfe :: 0xff :: rest => (.utf16 false, rest)
  | 0xef :: 0xbb :: 0xbf :: rest => (.utf8, rest)
  | bytes => (.utf8, bytes)

def octetWidth? (octet : Nat) : Option Nat :=
  if octet < 0x80 then some 1
  else if octet < 0xc0 then none
  else if octet < 0xe0 then some 2
  else if octet < 0xf0 then some 3
  else if octet < 0xf8 then some 4
  else none

def isTrailingOctet (octet : Nat) : Bool :=
  0x80 ≤ octet && octet < 0xc0

def leadingBits (width octet : Nat) : Nat :=
  match width with
  | 1 => octet
  | 2 => octet % 0x20
  | 3 => octet % 0x10
  | _ => octet % 0x08

def leastOfWidth : Nat → Nat
  | 1 => 0
  | 2 => 0x80
  | 3 => 0x800
  | _ => 0x10000

def isSurrogate (code : Nat) : Bool :=
  0xd800 ≤ code && code ≤ 0xdfff

def isAllowed (code : Nat) : Bool :=
  code = 0x09 || code = 0x0a || code = 0x0d || (0x20 ≤ code && code ≤ 0x7e) || code = 0x85 ||
    (0xa0 ≤ code && code ≤ 0xd7ff) || (0xe000 ≤ code && code ≤ 0xfffd) ||
    (0x10000 ≤ code && code ≤ 0x10ffff)

def firstOctets (first : Nat) (more : List Nat) : Except Problem (Nat × Nat) := do
  let some width := octetWidth? first | .error .leadingOctet
  let trailing := more.take (width - 1)
  if trailing.length < width - 1 then .error .incompleteOctets
  else if trailing.any (! isTrailingOctet ·) then .error .trailingOctet
  else
    let code := trailing.foldl (fun n o => n * 0x40 + o % 0x40) (leadingBits width first)
    if code < leastOfWidth width then .error .octetLength
    else if isSurrogate code || 0x10ffff < code then .error .badCodePoint
    else .ok (code, width)

def unit (littleEndian : Bool) (a b : Nat) : Nat :=
  if littleEndian then b * 0x100 + a else a * 0x100 + b

def firstUnits (littleEndian : Bool) : List Nat → Except Problem (Nat × Nat)
  | a :: b :: more =>
    let high := unit littleEndian a b
    if 0xdc00 ≤ high ∧ high ≤ 0xdfff then .error .lowSurrogate
    else if 0xd800 ≤ high ∧ high ≤ 0xdbff then
      match more with
      | c :: d :: _ =>
        let low := unit littleEndian c d
        if 0xdc00 ≤ low ∧ low ≤ 0xdfff then
          .ok (0x10000 + (high - 0xd800) * 0x400 + (low - 0xdc00), 4)
        else .error .noLowSurrogate
      | _ => .error .incompletePair
    else .ok (high, 2)
  | _ => .error .incompleteUnit

def Encoding.first : Encoding → Nat → List Nat → Except Problem (Nat × Nat)
  | .utf8, b, more => firstOctets b more
  | .utf16 littleEndian, b, more => firstUnits littleEndian (b :: more)

def Problem.isCutOff : Problem → Bool
  | .incompleteOctets | .incompleteUnit | .incompletePair => true
  | _ => false

/-- Characters that are decoded together, and what keeps the octets behind them from being decoded. -/
structure Portion where
  chars : List Char := []
  problem : Option Problem := none
  deriving Repr, DecidableEq

/-- Decodes octets, of which the first `skipped` belong to a character already decoded. Gives the
characters and, with the reason, the octets that are left. -/
def decodeSkipping (e : Encoding) : Nat → List Nat → List Char × Option (Problem × List Nat)
  | _, [] => ([], none)
  | n + 1, _ :: rest => decodeSkipping e n rest
  | 0, b :: rest =>
    match e.first b rest with
    | .error p => ([], some (p, b :: rest))
    | .ok (code, width) =>
      if isAllowed code then
        let (chars, left) := decodeSkipping e (width - 1) rest
        (Char.ofNat code :: chars, left)
      else ([], some (.controlCharacter, b :: rest))

def portionSize : Nat := 512

/-- The portions of octets, of which the first has room for so many. -/
def portionsOf (e : Encoding) : Nat → Nat → List Nat → List Portion
  | 0, _, _ => []
  | fuel + 1, room, octets =>
    let later := octets.drop room
    match decodeSkipping e 0 (octets.take room) with
    | (chars, none) => ⟨chars, none⟩ :: if later.isEmpty then [] else portionsOf e fuel portionSize later
    | (chars, some (problem, left)) =>
      if ! problem.isCutOff then [⟨chars, some problem⟩]
      else if later.isEmpty then [⟨chars, none⟩, ⟨[], some problem⟩]
      else ⟨chars, none⟩ :: portionsOf e fuel portionSize (left ++ later)

/-- The portions of a document. A byte order mark takes its room in the first one. -/
def portions (octets : List Nat) : List Portion :=
  let (e, rest) := Encoding.detect octets
  portionsOf e (octets.length + 1) (portionSize - (octets.length - rest.length)) rest

end ExtensionLowering.Yaml
