import ExtensionLowering.Pattern.Parse
import ExtensionLowering.Pattern.Program
/-!
# Replacement templates

A template is text with references to the groups of a match: `$name`, `$n` or the same in braces;
`$$` is a dollar sign, and a dollar sign that begins no reference stands for itself. `replaceAll`
puts a template in place of every match that does not overlap the one before it.
-/
namespace ExtensionLowering.Pattern

inductive TemplatePiece where
  | text (c : Char)
  | group (n : Nat)
  | named (name : String)
  deriving Repr, DecidableEq

abbrev Template := List TemplatePiece

def isNameChar (c : Char) : Bool :=
  c == '_' || Unicode.isLetter c || Unicode.isDecimal c

/-- The number that a name spells: plain digits without leading zeros, at most nine of them. -/
def groupNumber? (name : List Char) : Option Nat :=
  let short := name.length ≤ 9
  match name with
  | '0' :: _ :: _ => none
  | ds =>
    if short && ds.all Char.isDigit then
      some (ds.foldl (fun n c => 10 * n + (c.toNat - '0'.toNat)) 0)
    else none

def reference (name : List Char) : TemplatePiece :=
  match groupNumber? name with
  | some n => .group n
  | none => .named (String.ofList name)

def groupName? (s : List Char) : Option (List Char × List Char) :=
  let bare (s : List Char) : Option (List Char × List Char) :=
    let name := s.takeWhile isNameChar
    if name.isEmpty then none else some (name, s.drop name.length)
  match s with
  | c :: inner =>
    if c = '\x7b' then
      match bare inner with
      | some (name, d :: rest) => if d = '\x7d' then some (name, rest) else none
      | _ => none
    else bare s
  | [] => none

namespace Template

def ofCharsAux : Nat → List Char → Template
  | 0, _ => []
  | _ + 1, [] => []
  | fuel + 1, c :: rest =>
    if c = '$' then
      match rest with
      | '$' :: rest => .text '$' :: ofCharsAux fuel rest
      | rest =>
        match groupName? rest with
        | some (name, rest) => reference name :: ofCharsAux fuel rest
        | none => .text '$' :: ofCharsAux fuel rest
    else .text c :: ofCharsAux fuel rest

def ofChars (s : List Char) : Template :=
  ofCharsAux s.length s

def slice (text : Array Char) (lo hi : Nat) : List Char :=
  (text.toList.drop lo).take (hi - lo)

def groupText (text : Array Char) (m : Match) (n : Nat) : List Char :=
  match m.group? n with
  | some (lo, hi) => slice text lo hi
  | none => []

def namedText (p : Program) (text : Array Char) (m : Match) (name : String) : List Char :=
  match p.names.find? fun g => g.1 == name && (m.group? g.2).isSome with
  | some (_, n) => groupText text m n
  | none => []

def expandPiece (p : Program) (text : Array Char) (m : Match) : TemplatePiece → List Char
  | .text c => [c]
  | .group n => groupText text m n
  | .named name => namedText p text m name

def expand (t : Template) (p : Program) (text : Array Char) (m : Match) : List Char :=
  t.flatMap (expandPiece p text m)

end Template

/-- Replaces the matches from `place` on; `done` is the end of the last one. A match of the empty
text right behind another match is left alone. -/
def replaceFrom (p : Program) (t : Template) (text : Array Char) : Nat → Nat → Nat → List Char
  | 0, done, _ => Template.slice text done text.size
  | fuel + 1, done, place =>
    match p.find? text place with
    | none => Template.slice text done text.size
    | some m =>
      Template.slice text done m.first ++
        (if done < m.last || m.first = 0 then t.expand p text m else []) ++
        replaceFrom p t text fuel m.last (if m.last ≤ place then place + 1 else m.last)

/-- Replaces every match in a text. Each round starts further on. -/
def replaceAll (p : Program) (t : Template) (text : String) : String :=
  let chars := text.toList.toArray
  String.ofList (replaceFrom p t chars (chars.size + 1) 0 0)

end ExtensionLowering.Pattern
