import ExtensionLowering.Lowering.File
import ExtensionLowering.Tree.Complete
/-!
# Stages

A file goes through stages that lower and print it, up to the first stage that reports an error.
-/
namespace ExtensionLowering

inductive Stage where
  | lower
  | print
  deriving Repr, DecidableEq

structure Passage where
  path : String := ""
  file : Option File := none
  output : String := ""
  errors : List Diagnostic := []

namespace Passage

def hasErrors (p : Passage) : Bool :=
  ! p.errors.isEmpty

def lower (p : Passage) (session : Session) : Option (Passage × Session) :=
  match p.file with
  | none => some (p, session)
  | some f =>
    let (outcome, session) := session.lower f
    match outcome with
    | .lowered f => some ({ p with file := some f }, session)
    | .failed errors =>
      some ({ p with errors := p.errors ++ errors.map (·.orFile p.path) }, session)
    | .broken => none

def print (p : Passage) : Option Passage :=
  match p.file with
  | none => some p
  | some f => f.print?.map fun text => { p with output := text }

/-- Runs stages up to the first error. Lowering is skipped when there are no facts. -/
def run (facts : Bool) (session : Session) : List Stage → Passage → Option (Passage × Session)
  | [], p => some (p, session)
  | stage :: stages, p => do
    let (p, session) ← match stage with
      | .lower => if facts then p.lower session else some (p, session)
      | .print => p.print.map (·, session)
    if p.hasErrors then some (p, session) else run facts session stages p

/-- Runs several files through the stages; the files share a session. -/
def runAll (facts : Bool) (session : Session) (stages : List Stage) :
    List Passage → Option (List Passage)
  | [] => some []
  | p :: ps => do
    let (p, session) ← run facts session stages p
    let ps ← runAll facts session stages ps
    some (p :: ps)

end Passage

end ExtensionLowering
