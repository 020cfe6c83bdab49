import ExtensionLowering.Pattern.Template
import ExtensionLowering.Text.Quoted
/-!
# Rules of the configuration

A rule replaces the parts of a path that its pattern matches. Group references in the replacement
extend over as many digits as follow the dollar sign; they are kept in braces, so that no following
letter can join them.
-/
namespace ExtensionLowering

structure RuleText where
  pattern : String := ""
  replacement : String := ""
  octets : Option (List Nat) := none
  deriving Repr, DecidableEq

namespace RuleText

def shown (t : RuleText) : String :=
  match t.octets with
  | some octets => Text.quoteDebugBytes octets
  | none => Text.quoteDebug t.pattern

def strays (t : RuleText) : List Nat :=
  (t.octets.map fun octets => Text.strayPlaces (Text.charsOrStrays octets)).getD []

end RuleText

inductive RuleError where
  | emptyPattern
  | badPattern (text : RuleText) (fault : Pattern.Fault)
  deriving Repr

def RuleError.message : RuleError → String
  | .emptyPattern => "empty pattern"
  | .badPattern text fault => "pattern " ++ text.shown ++ ": " ++ fault.message

/-- Puts braces around the digits behind every dollar sign. The flag tells whether the digits of a
reference are being read. -/
def braceReferences : Bool → List Char → List Char
  | reading, [] => if reading then ['\x7d'] else []
  | reading, c :: cs =>
    if reading && c.isDigit then c :: braceReferences true cs
    else
      (if reading then ['\x7d'] else []) ++
        if c = '$' && cs.head?.any Char.isDigit then '$' :: '\x7b' :: braceReferences true cs
        else c :: braceReferences false cs

def normalizeReplacement (s : String) : String :=
  String.ofList (braceReferences false s.toList)

structure Rule where
  pattern : String
  replacement : String
  program : Pattern.Program

namespace Rule

def compile (t : RuleText) : Except RuleError Rule :=
  if t.pattern = "" then .error .emptyPattern
  else
    match Pattern.parse t.pattern t.strays with
    | .error fault => .error (.badPattern t fault)
    | .ok (regex, groups) =>
      .ok { pattern := t.pattern
            replacement := normalizeReplacement t.replacement
            program := Pattern.Program.ofRegex regex groups }

def image? (r : Rule) (path : String) : Option String :=
  if r.program.isMatch path.toList.toArray then
    some (Pattern.replaceAll r.program (Pattern.Template.ofChars r.replacement.toList) path)
  else none

end Rule

abbrev Rules := List Rule

namespace Rules

def compileFrom : Nat → List RuleText → Except (Nat × RuleError) Rules
  | _, [] => .ok []
  | i, t :: ts =>
    match Rule.compile t with
    | .error e => .error (i, e)
    | .ok r => (compileFrom (i + 1) ts).map (r :: ·)

def compile (ts : List RuleText) : Except (Nat × RuleError) Rules :=
  compileFrom 0 ts

/-- The first matching rule wins. -/
def image? (rs : Rules) (path : String) : Option String :=
  rs.findSome? (·.image? path)

end Rules

end ExtensionLowering
