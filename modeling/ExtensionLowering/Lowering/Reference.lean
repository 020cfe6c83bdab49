import ExtensionLowering.Lowering.State
/-!
# References to declarations

A declaration of the file itself is referred to through its private alias, any other one through the
namespace import of its module.
-/
namespace ExtensionLowering

/-- `(() => { throw new Error("Not Implemented"); })()` -/
def notImplemented : Expr :=
  .immediate [.throwing "Not Implemented"]

/-- `fn(args)(receiver)` for a pipeable extension, `fn(receiver, args)` otherwise. Type arguments go
where the explicit arguments are. -/
def extensionCallTyped (fn : Expr) (pipeable : Bool) (typeArgs : List TypeRef) (receiver : Expr)
    (args : List Expr) : Expr :=
  if pipeable then (fn.applyTyped typeArgs args).apply [receiver]
  else fn.applyTyped typeArgs (receiver :: args)

def extensionCall (fn : Expr) (pipeable : Bool) (receiver : Expr) (args : List Expr) : Expr :=
  extensionCallTyped fn pipeable [] receiver args

def Env.isCurrentFile (env : Env) (file : String) : Bool :=
  Path.clean file = Path.clean env.fileName

/-- The module a declaration is imported from: its own location, else the configured path. -/
def Env.importPath? (env : Env) (d : Declaration) : Option String :=
  if d.location ≠ "" then some d.location
  else env.config.bind (·.importPath? d.file)

def Env.traceName (env : Env) : String :=
  env.config.elim env.fileName (·.traceName env.fileName)

namespace Lower

def reference (env : Env) (d : Option Declaration) (exportName : String) (token : Token) :
    Lower Expr := do
  match d with
  | none => return .ofName exportName
  | some d =>
    if env.isCurrentFile d.file then
      if d.kind.isNamed then return .ofIdent (← exportAlias exportName d.exported)
      else return .ofName exportName
    else
      match env.importPath? d with
      | some path => return (Expr.ofIdent (← importAlias path)).member exportName
      | none =>
        fail env (Diagnostic.ofArgs .noImportPath token [.text d.file])
        return .ofName exportName

def declarationReference (env : Env) (d : Option Declaration) (token : Token) : Lower Expr :=
  match d with
  | none => return notImplemented
  | some d => reference env (some d) d.name token

def exportNameOf (s : Signature) (d : Option Declaration) : String :=
  if s.exportName = "" then d.elim "" (·.name) else s.exportName

def extensionReference (env : Env) (s : Signature) (token : Token) : Lower Expr :=
  let d := env.compilation.declaration? s.decl
  reference env d (exportNameOf s d) token

def targetReference (env : Env) (t : Target) (token : Token) : Lower Expr :=
  reference env (env.compilation.declaration? t.decl) t.exportName token

/-- The trace of a call: the trace parameter in scope, else the file and the place of the call. -/
def trace (env : Env) (token : Token) : Lower Expr := do
  match env.trace with
  | some id => return .ofIdent id
  | none =>
    let place := ":" ++ toString token.line ++ ":" ++ toString token.column
    return (Expr.ofIdent (← traceVar)).infixOp "+" (.ofString place)

/-- Arguments with the trace behind them if the extension takes one. -/
def withTrace (env : Env) (s : Signature) (token : Token) (args : List Expr) :
    Lower (List Expr) := do
  if s.trace then return args ++ [← trace env token] else return args

end Lower

end ExtensionLowering
