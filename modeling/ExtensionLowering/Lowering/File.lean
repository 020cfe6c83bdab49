import ExtensionLowering.Alias.Named
import ExtensionLowering.Alias.Reference
import ExtensionLowering.Lowering.Expr
/-!
# Lowering files

A session lowers the files of a compilation one after the other. A lowered file consists of the trace
constant if a trace needs it, the imports, the pinned copies that found no place and the lowered
statements, in which declarations have moved to their aliases.
-/
namespace ExtensionLowering

def File.freeMark (f : File) : Nat :=
  ((Node.file f).idents.filterMap (·.mark)).foldl (fun n m => max n (m + 1)) 0

def File.supply (f : File) : NameSupply :=
  ({ issued := f.freeMark } : NameSupply).reserve (.file f)

/-- Marks the identifiers of namespace imports, counted from `n`. -/
def markImports : Nat → List Stmt → List Stmt
  | _, [] => []
  | n, .importDecl t (some binding) default named module :: ss =>
    .importDecl t (some { binding with mark := some n }) default named module ::
      markImports (n + 1) ss
  | n, s :: ss => s :: markImports n ss

/-- Gives the namespace imports of a file, which inserted references share, identifiers that can be
told apart. -/
def File.markImports (f : File) : File :=
  { f with stmts := ExtensionLowering.markImports 0 f.stmts }

def Stmt.namespaceImport? : Stmt → Option (Ident × String)
  | .importDecl _ (some binding) _ _ (some path) => some (binding, path)
  | _ => none

/-- The ledger at the beginning of a file, which knows the file's own namespace imports. -/
def File.ledger (f : File) : Ledger :=
  (f.stmts.filterMap Stmt.namespaceImport?).foldl (fun l (binding, path) => l.add binding path) {}

/-- Lowers the statements of a file. Gives them with the pins that found no place. -/
def Lower.file (env : Env) (f : File) : Lower (List Stmt × List Pin) := do
  let (_, hoists) ← (registerHoists env .file f.unique).run []
  let ss ← stmts env f.stmts
  (placeHoists .file ss).run' hoists

inductive FileOutcome where
  | lowered (file : File)
  | failed (errors : List Diagnostic)
  /-- A part was missing where its text was needed. -/
  | broken

def preamble (env : Env) (s : Lowering) : List Stmt :=
  (s.traceVar.toList.map fun id => .constant id (.ofString env.traceName) false) ++
    s.ledger.statements

/-- Moves the declarations of a lowered file to their aliases. The first list is the pins that found
no place. -/
def moveDeclarations (as : Aliases) (pins stmts : List Stmt) : Option (List Stmt) :=
  if ! as.isEmpty && ! Aliases.allNamed stmts then none
  else
    let r := as.renames stmts
    let moved := relabel (as.untaken r) (pins ++ as.moveAll stmts)
    if ! r.isEmpty && ! Stmt.allNamed moved then none
    else
      let renamed := r.references moved
      some (relabel (r.carried renamed) renamed)

def finishFile (env : Env) (s : Lowering) (pins stmts : List Stmt) : FileOutcome :=
  match moveDeclarations s.names.aliases pins stmts with
  | none => .broken
  | some body => .lowered { name := env.fileName, stmts := preamble env s ++ body }

structure Session where
  compilation : Compilation
  config : Option Config := none
  names : NameTable := .begin {}

namespace Session

def env (session : Session) (f : File) : Env :=
  { compilation := session.compilation, config := session.config, fileName := f.name }

def start (session : Session) (f : File) : Lowering :=
  { names := session.names.beginFile f.supply, ledger := f.ledger }

/-- The lowered statements of a file, the pins that found no place and the state at the end. -/
def walk (session : Session) (f : File) : (List Stmt × List Pin) × Lowering :=
  (Lower.file (session.env f) f).run (session.start f)

/-- Lowers one file. After an error the names synthesized so far are still there. -/
def lower (session : Session) (f : File) : FileOutcome × Session :=
  let ((stmts, pins), s) := session.walk f
  if s.broken then (.broken, { session with names := s.names })
  else if ! s.errors.isEmpty then (.failed s.errors, { session with names := s.names })
  else
    (finishFile (session.env f) s (pins.map Pin.stmt) stmts,
      { session with names := s.names.reset })

def lowerAll (session : Session) : List File → List FileOutcome × Session
  | [] => ([], session)
  | f :: fs =>
    let (outcome, session) := session.lower f
    let (outcomes, session) := session.lowerAll fs
    (outcome :: outcomes, session)

end Session

end ExtensionLowering
