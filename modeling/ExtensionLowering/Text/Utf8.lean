/-!
# UTF-8

Reading bytes as text. A byte that belongs to no well-formed character stands for the replacement
character on its own.
-/
namespace ExtensionLowering.Text

def isContinuation (b : Nat) : Bool :=
  0x80 ≤ b && b ≤ 0xbf

/-- The first character of a byte sequence and the number of its bytes, if it is well formed: no
overlong forms, no surrogates, nothing above the last code point. -/
def firstChar? : List Nat → Option (Char × Nat)
  | [] => none
  | a :: rest =>
    if a < 0x80 then some (Char.ofNat a, 1)
    else if 0xc2 ≤ a && a ≤ 0xdf then
      match rest with
      | b :: _ =>
        if isContinuation b then some (Char.ofNat ((a - 0xc0) * 0x40 + (b - 0x80)), 2) else none
      | [] => none
    else if 0xe0 ≤ a && a ≤ 0xef then
      match rest with
      | b :: c :: _ =>
        let n := (a - 0xe0) * 0x1000 + (b - 0x80) * 0x40 + (c - 0x80)
        if isContinuation b && isContinuation c && 0x800 ≤ n && !(0xd800 ≤ n && n ≤ 0xdfff) then
          some (Char.ofNat n, 3)
        else none
      | _ => none
    else if 0xf0 ≤ a && a ≤ 0xf4 then
      match rest with
      | b :: c :: d :: _ =>
        let n := (a - 0xf0) * 0x40000 + (b - 0x80) * 0x1000 + (c - 0x80) * 0x40 + (d - 0x80)
        if isContinuation b && isContinuation c && isContinuation d && 0x10000 ≤ n && n ≤ 0x10ffff
        then some (Char.ofNat n, 4)
        else none
      | _ => none
    else none

/-- The characters of a byte sequence, with every stray byte in its place. `skip` bytes at the front
belong to a character already read. -/
def charsSkipping : Nat → List Nat → List (Except Nat Char)
  | _, [] => []
  | skip + 1, _ :: rest => charsSkipping skip rest
  | 0, b :: rest =>
    match firstChar? (b :: rest) with
    | some (c, n) => .ok c :: charsSkipping (n - 1) rest
    | none => .error b :: charsSkipping 0 rest

def charsOrStrays (bytes : List Nat) : List (Except Nat Char) :=
  charsSkipping 0 bytes

def charOrReplacement : Except Nat Char → Char
  | .ok c => c
  | .error _ => '�'

def ofBytes (bytes : List Nat) : String :=
  String.ofList ((charsOrStrays bytes).map charOrReplacement)

/-- The places of stray bytes, each as the number of characters from there to the end. -/
def strayPlaces : List (Except Nat Char) → List Nat
  | [] => []
  | .ok _ :: rest => strayPlaces rest
  | .error _ :: rest => (rest.length + 1) :: strayPlaces rest

end ExtensionLowering.Text
