/-!
# Base 64

Octets written in groups of four characters that carry six bits each. The last group may be filled up
with one or two equals signs; the bits that then remain do not count. Line breaks may stand anywhere.
-/
namespace ExtensionLowering.Text

def sextet? (c : Char) : Option Nat :=
  if 'A' ≤ c ∧ c ≤ 'Z' then some (c.toNat - 'A'.toNat)
  else if 'a' ≤ c ∧ c ≤ 'z' then some (c.toNat - 'a'.toNat + 26)
  else if '0' ≤ c ∧ c ≤ '9' then some (c.toNat - '0'.toNat + 52)
  else if c = '+' then some 62
  else if c = '/' then some 63
  else none

def groupOctets? : List Char → Option (List Nat)
  | [] => some []
  | [a, b, '=', '='] => do
    let x ← sextet? a
    let y ← sextet? b
    some [x * 4 + y / 16]
  | [a, b, c, '='] => do
    let x ← sextet? a
    let y ← sextet? b
    let z ← sextet? c
    some [x * 4 + y / 16, y % 16 * 16 + z / 4]
  | a :: b :: c :: d :: rest => do
    let x ← sextet? a
    let y ← sextet? b
    let z ← sextet? c
    let w ← sextet? d
    let octets ← groupOctets? rest
    some ([x * 4 + y / 16, y % 16 * 16 + z / 4, z % 4 * 64 + w] ++ octets)
  | _ => none

def decodeBase64? (s : String) : Option (List Nat) :=
  groupOctets? (s.toList.filter fun c => c ≠ '\n' ∧ c ≠ '\r')

end ExtensionLowering.Text
