import ExtensionLowering.Config.Basic
import ExtensionLowering.Facts.Derivation
import ExtensionLowering.Import.Ledger
import ExtensionLowering.Name.Table
/-!
# The state of a file being lowered

Lowering hands out names, counts imports and collects errors while it walks a file. An error does
not stop it; a part that is missing where its text is needed does, and then nothing else counts.
-/
namespace ExtensionLowering

def traceParameter : String := "__tsplusTrace"

/-- What a place in a file is lowered with. -/
structure Env where
  compilation : Compilation
  config : Option Config := none
  fileName : String := ""
  /-- The trace parameter of the nearest enclosing function that has one. -/
  trace : Option Ident := none

def traceParam? (params : List Param) : Option Ident :=
  params.getLast?.bind fun p => p.name.filter (·.name = traceParameter)

def Env.inside (env : Env) (params : List Param) : Env :=
  { env with trace := (traceParam? params).or env.trace }

structure Lowering where
  names : NameTable
  ledger : Ledger := {}
  /-- The constant that holds the trace name of the file, once a trace needs it. -/
  traceVar : Option Ident := none
  pinned : List (DeclId × Ident) := []
  errors : List Diagnostic := []
  /-- Was a part missing where its text was needed? -/
  broken : Bool := false

abbrev Lower := StateM Lowering

namespace Lower

/-- Records an error; it belongs to the file unless it says otherwise. -/
def fail (env : Env) (d : Diagnostic) : Lower Unit :=
  modify fun s => { s with errors := s.errors ++ [d.orFile env.fileName] }

def giveUp : Lower Unit :=
  modify fun s => { s with broken := true }

def fresh (base : String) : Lower Ident := do
  let s ← get
  let (id, names) := s.names.fresh base
  set { s with names }
  return id

def importAlias (path : String) : Lower Ident := do
  let s ← get
  let (binding, ledger, supply) := s.ledger.get s.names.supply path
  set { s with ledger, names := { s.names with supply } }
  return binding

def retract (env : Env) (dead : Expr) : Lower Unit := do
  let s ← get
  let (ledger, excess) := s.ledger.retractReporting (.expr dead)
  set { s with ledger }
  match excess with
  | none => return
  | some d => fail env d

/-- The private binding of a file-level name. -/
def exportAlias (name : String) (exported : Bool) : Lower Ident := do
  let s ← get
  let (binding, names) := s.names.exportAlias name exported
  set { s with names }
  return binding.ident

def derivationName (d : DerivId) : Lower Ident := do
  let s ← get
  let (id, names) := s.names.derivationName (some d)
  set { s with names }
  return id

def traceVar : Lower Ident := do
  match (← get).traceVar with
  | some id => return id
  | none =>
    let id ← fresh "fileName"
    modify fun s => { s with traceVar := some id }
    return id

end Lower

end ExtensionLowering
