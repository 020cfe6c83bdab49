import ExtensionLowering.Facts.Derivation
import ExtensionLowering.Tree.Basic
/-!
# How calls are lowered

The facts of a call and the shape of its callee and arguments decide which rule lowers it. The choice
looks at the unlowered call only.
-/
namespace ExtensionLowering

/-- A call that binds an effect: flagged, with one argument. -/
def Expr.isBind : Expr → Bool
  | .call _ facts _ _ [_] => facts.bind
  | _ => false

def Stmt.isBind : Stmt → Bool
  | .varDecl _ _ _ [.mk _ _ _ init] => init.isBind
  | .expr _ e => e.isBind
  | _ => false

def Stmt.boundName? : Stmt → Option Ident
  | .varDecl _ _ _ [.mk _ name _ _] => name
  | _ => none

def Stmt.isReturnBind : Stmt → Bool
  | .ret _ e => e.isBind
  | _ => false

def Stmt.boundExpr : Stmt → Expr
  | .varDecl _ _ _ [.mk _ _ _ init] => init
  | .expr _ e => e
  | .ret _ e => e
  | _ => .missing

/-- Do statements bind an effect, or end in returning one? -/
def hasBind : List Stmt → Bool
  | [] => false
  | s :: ss => s.isBind || (ss.isEmpty && s.isReturnBind) || hasBind ss

/-- Is the only argument of a call an arrow function with a block that binds effects? -/
def isDoBody : List Expr → Bool
  | [.arrow _ _ (.mk _ _ stmts) _] => hasBind stmts
  | _ => false

def Expr.dataFirst? : Expr → Option Target
  | .call _ facts _ _ _ => facts.dataFirst
  | _ => none

def Expr.isProp : Expr → Bool
  | .prop .. => true
  | _ => false

def Expr.accessed : Expr → Expr
  | .prop _ _ o _ _ => o
  | _ => .missing

/-- A name for the callee of a call with some token in messages; a property access needs a name. -/
def Expr.calleeName? (token : Token) : Expr → Option String
  | .ident id => some id.name
  | .prop _ _ _ name _ => name.map (·.name)
  | _ => some token.lexeme

inductive CallRoute where
  /-- Keep the call; fill in the arguments it lacks. -/
  | plain
  /-- Apply stages one after the other. -/
  | pipe
  /-- Stand for the argument. -/
  | identity
  /-- Stand for nothing. -/
  | remove
  /-- Stand for a derived value. -/
  | derive
  /-- Call the data-first variant of the curried callee. -/
  | fuse (target : Target)
  /-- Chain the effects of a Do block. -/
  | chain (map flatMap : Signature)
  /-- Call the extension behind the callee. -/
  | extension (signature : Signature)
  /-- Report that there is no extension to call. -/
  | unresolved
  /-- Call an extension with the object of the callee as receiver. -/
  | method (signature : Signature)
  /-- Call an extension with the first argument as receiver. -/
  | function (signature : Signature)
  /-- Apply stages, starting with the object of the callee. -/
  | methodPipe
  deriving Repr, DecidableEq

/-- The rule for a call that the checker takes for a fluent one. -/
def fluentRoute (c : Compilation) (facts : CallFacts) (callee : Expr) (args : List Expr) :
    CallRoute :=
  match facts.signature with
  | none => .unresolved
  | some s =>
    if s.kind ≠ .fluent then .unresolved
    else
      let pipes := (c.declaration? s.decl).any (·.intrinsic = some .pipe)
      if callee.isProp then if pipes then .methodPipe else .method s
      else if args.isEmpty then .unresolved
      else if pipes then .pipe
      else .function s

def ordinaryRoute (c : Compilation) (facts : CallFacts) (callee : Expr) (args : List Expr) :
    CallRoute :=
  match (if args.length = 1 then callee.dataFirst? else none) with
  | some target => .fuse target
  | none =>
    match (if isDoBody args then facts.doBlock else none) with
    | some ⟨some map, some flatMap⟩ => .chain map flatMap
    | _ =>
      match facts.extension with
      | some s => .extension s
      | none => if facts.isFluent then fluentRoute c facts callee args else .plain

def callRoute (c : Compilation) (facts : CallFacts) (callee : Expr) (args : List Expr) : CallRoute :=
  if callee.isSuper then .plain
  else
    match facts.intrinsic with
    | some .pipe => if args.isEmpty then ordinaryRoute c facts callee args else .pipe
    | some .identity =>
      match args with
      | [a] => if a.isSpread then .plain else .identity
      | _ => .plain
    | some .remove => .remove
    | some .derive => .derive
    | none => ordinaryRoute c facts callee args

/-- Does lowering keep a call a call of its own callee or of the extension behind it? A curried call
that is not kept cannot be fused, and then the call around it is kept. -/
def Expr.isKept (c : Compilation) : Expr → Bool
  | .call _ facts callee _ args =>
    match callRoute c facts callee args with
    | .plain | .extension _ | .unresolved => true
    | .fuse _ => ! callee.isKept c
    | _ => false
  | _ => false

end ExtensionLowering
