import ExtensionLowering.Lowering.Reference
/-!
# Derived values

Turns a derivation into the expression that builds its value. What cannot be derived becomes code
that throws when it is run.
-/
namespace ExtensionLowering

def Literal.expr : Literal → Expr
  | .text s => .ofString s
  | .bool b => .ofBool b
  | .integer n => .ofFloat (Float.ofInt n)
  | .single x => .ofFloat x.toFloat
  | .double x => .ofFloat x
  | .shown s => .ofString s

namespace Lower

/-- The pinned copy of a declaration, if it has one. -/
def pin? (d : Option DeclId) : Lower (Option Ident) := do
  let s ← get
  return d.bind fun d => s.pinned.lookup d

/-- Lowers a derivation whose parts are lowered by `part`. -/
def deriveNode (env : Env) (token : Token) (part : Option DerivId → Lower Expr) (id : DerivId)
    (d : Derivation) : Lower Expr :=
  let declared (d : Option DeclId) := declarationReference env (env.compilation.declaration? d) token
  match d with
  | .invalid _ => return notImplemented
  | .blockScope d => do
    match ← pin? d with
    | some id => return .ofIdent id
    | none => declared d
  | .implicitScope d => declared d
  | .emptyObject => return .ofProperties []
  | .literal v => return v.expr
  | .intersection fields => do
    return .ofProperties (← fields.mapM fun f => return .spreading (← part f))
  | .object fields => do
    return .ofProperties (← fields.mapM fun (name, f) => return .quoted name (← part f))
  | .tuple fields => do
    return .ofElems (← fields.mapM part)
  | .prior target => do
    match (← get).names.derivation? target with
    | some id => return .ofIdent id
    | none => return notImplemented
  | .rule rule args users lazyRule =>
    if users = 0 then do
      let fn ← declared rule
      return fn.apply (← args.mapM part)
    else
      match lazyRule with
      | none => return notImplemented
      | some _ => do
        -- The name comes first, since the arguments refer back to it.
        let self ← derivationName id
        let wrap ← declared lazyRule
        let fn ← declared rule
        let body := fn.apply (← args.mapM part)
        return wrap.apply [.lambda [self] body]

def deriveWithin (env : Env) (token : Token) : Nat → Option DerivId → Lower Expr
  | _, none => return notImplemented
  | 0, some _ => return notImplemented
  | n + 1, some id =>
    match env.compilation.derivation? id with
    | none => return notImplemented
    | some d => deriveNode env token (deriveWithin env token n) id d

/-- Lowers a derivation. No chain of references that avoids back references is longer than the
graph. -/
def derive (env : Env) (d : Option DerivId) (token : Token) : Lower Expr :=
  deriveWithin env token (env.compilation.derivations.size + 1) d

end Lower

end ExtensionLowering
