import ExtensionLowering.Pattern.CharSet
/-!
# Patterns

Regular expressions and the errors in their texts.
-/
namespace ExtensionLowering.Pattern

inductive Anchor where
  | beginText
  | endText
  | beginLine
  | endLine
  | wordBoundary
  | noWordBoundary
  deriving Repr, DecidableEq

structure Options where
  foldCase : Bool := false
  dotAll : Bool := false
  multiline : Bool := false
  swapGreed : Bool := false
  deriving Repr, DecidableEq

/-- A regular expression. A greedy repetition prefers one more round, any other prefers to go on. -/
inductive Regex where
  | empty
  /-- Characters that follow one another, given by their codes. Where case does not count a code stands
  for all that fold like it. -/
  | literal (options : Options) (codes : List Nat)
  | chars (set : CharSet)
  | any (newline : Bool)
  | anchor (a : Anchor)
  | concat (parts : List Regex)
  | alternate (parts : List Regex)
  | star (greedy : Bool) (r : Regex)
  | plus (greedy : Bool) (r : Regex)
  | quest (greedy : Bool) (r : Regex)
  | counted (min : Nat) (max : Option Nat) (greedy : Bool) (r : Regex)
  | capture (index : Nat) (name : String) (r : Regex)

inductive FaultKind where
  | charRange
  | escape
  | namedCapture
  | groupOptions
  | nestedRepeat
  | repeatCount
  | missingBracket
  | missingParen
  | missingRepeatArgument
  | trailingBackslash
  | unexpectedParen
  | notText
  | tooDeep
  | tooLarge
  deriving Repr, DecidableEq

def FaultKind.text : FaultKind → String
  | .charRange => "invalid character class range"
  | .escape => "invalid escape sequence"
  | .namedCapture => "invalid named capture"
  | .groupOptions => "invalid or unsupported Perl syntax"
  | .nestedRepeat => "invalid nested repetition operator"
  | .repeatCount => "invalid repeat count"
  | .missingBracket => "missing closing ]"
  | .missingParen => "missing closing )"
  | .missingRepeatArgument => "missing argument to repetition operator"
  | .trailingBackslash => "trailing backslash at end of expression"
  | .unexpectedParen => "unexpected )"
  | .notText => "invalid UTF-8"
  | .tooDeep => "expression nests too deeply"
  | .tooLarge => "expression too large"

/-- What is wrong with a pattern, and the piece of its text that shows it. -/
structure Fault where
  kind : FaultKind
  piece : List Char
  deriving Repr, DecidableEq

def Fault.message (f : Fault) : String :=
  "error parsing regexp: " ++ f.kind.text ++ ": `" ++ String.ofList f.piece ++ "`"

namespace Regex

mutual

def height : Regex → Nat
  | .empty | .literal _ _ | .chars _ | .any _ | .anchor _ => 1
  | .concat ps | .alternate ps => heights ps + 1
  | .star _ r | .plus _ r | .quest _ r | .counted _ _ _ r | .capture _ _ r => r.height + 1

def heights : List Regex → Nat
  | [] => 0
  | r :: rs => max r.height (heights rs)

end

mutual

/-- The number of steps the expression amounts to when its repetitions are written out. -/
def size : Regex → Nat
  | .empty | .chars _ | .any _ | .anchor _ => 1
  | .literal _ codes => max 1 codes.length
  | .concat ps => max 1 (sizes ps)
  | .alternate ps => max 1 (sizes ps + (ps.length - 1))
  | .star _ r | .capture _ _ r => 2 + r.size
  | .plus _ r | .quest _ r => 1 + r.size
  | .counted min none _ r => if min = 0 then 2 + r.size else 1 + min * r.size
  | .counted min (some max) _ r => Nat.max 1 (max * r.size + (max - min))

def sizes : List Regex → Nat
  | [] => 0
  | r :: rs => r.size + sizes rs

end

mutual

/-- Whether the counted repetitions inside one another multiply to at most `n`. -/
def repeatsWithin (n : Nat) : Regex → Bool
  | .empty | .literal _ _ | .chars _ | .any _ | .anchor _ => true
  | .concat ps | .alternate ps => allRepeatWithin n ps
  | .star _ r | .plus _ r | .quest _ r | .capture _ _ r => r.repeatsWithin n
  | .counted min max _ r =>
    let m := max.getD min
    if max = some 0 then true
    else if n < m then false
    else r.repeatsWithin (if m = 0 then n else n / m)

def allRepeatWithin (n : Nat) : List Regex → Bool
  | [] => true
  | r :: rs => r.repeatsWithin n && allRepeatWithin n rs

end

mutual

def nullable : Regex → Bool
  | .literal _ codes => codes.isEmpty
  | .chars _ | .any _ => false
  | .empty | .anchor _ => true
  | .concat ps => allNullable ps
  | .alternate ps => anyNullable ps
  | .star .. | .quest .. => true
  | .plus _ r | .capture _ _ r => r.nullable
  | .counted min _ _ r => min = 0 || r.nullable

def allNullable : List Regex → Bool
  | [] => true
  | r :: rs => r.nullable && allNullable rs

def anyNullable : List Regex → Bool
  | [] => false
  | r :: rs => r.nullable || anyNullable rs

end

def literalSet (o : Options) (code : Nat) : CharSet :=
  if o.foldCase then (Unicode.foldClass code).map fun n => (n, n) else .single code

def set? : Regex → Option CharSet
  | .literal o [code] => some (literalSet o code)
  | .chars set => some set
  | .any newline => some (if newline then .all else .notNewline)
  | _ => none

end Regex

end ExtensionLowering.Pattern
