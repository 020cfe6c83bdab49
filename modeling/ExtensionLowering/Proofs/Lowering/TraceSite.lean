import ExtensionLowering.Proofs.Lowering.Events
import ExtensionLowering.Proofs.Tree.Survey
/-!
# Where traces are asked for

The calls of a tree that take a trace, said without lowering it: each with the trace parameter of
the nearest function around it that has one, its own token, and with what the name of trace
parameters will mean at the place where the trace is inserted. A part that is dropped asks for
nothing. What the name means follows the scopes of the tree, except that the body of a Do call is
cut into pieces: what follows a bind is the body of a function of the bound name.

## Main definitions

* `TraceName`: what the name of trace parameters means at a place.
* `tracing`: the survey of the trace arguments in a tree, with what the name means around them.
* `File.traceSites`: the places of a file where a trace is inserted.
-/
namespace ExtensionLowering

/-- What the name of trace parameters means at a place. -/
inductive TraceName where
  | free
  /-- The trace parameter of a function around the place, which has its value if the place is in the
  body of the function and not in a default value. -/
  | parameter (id : Ident) (ready : Bool)
  /-- Another parameter, the own name of a function, or what a block declares. -/
  | other
  deriving Repr, DecidableEq

namespace TraceName

/-- What the name means inside a scope. -/
def within (names : List String) (m : TraceName) : TraceName :=
  if traceParameter ∈ names then .other else m

/-- What the name means inside a function. -/
def inside (ready : Bool) (self : Option Ident) (ps : List Param) (m : TraceName) : TraceName :=
  match traceParam? ps with
  | some id => .parameter id ready
  | none => m.within (namesOf [self] ++ Param.bound ps)

end TraceName

/-! ## Traces in a tree -/

/-- A trace argument: a trace parameter, or the variable of the file and a place. -/
inductive TraceArg where
  | parameter (id : Ident)
  | place (file : Option Ident) (text : Option String)
  deriving Repr, DecidableEq

def Expr.name? : Expr → Option Ident
  | .ident id => some id
  | _ => none

def Expr.text? : Expr → Option String
  | .string _ text => some text
  | _ => none

/-- References to some trace parameters, and generated sums. -/
def tracing (ids : List Ident) : Survey TraceName TraceArg where
  name id := if id ∈ ids then [.parameter id] else []
  short id := if id ∈ ids then [.parameter id] else []
  key id := if id ∈ ids then [.parameter id] else []
  sum i l _ r := if i.token = Token.synthetic "+" then [.place l.name? r.text?] else []
  defaults := .inside false
  body := .inside true
  block body ss := .within (Stmt.scope body ss)

/-! ## Sites -/

/-- A call that takes a trace. -/
structure TraceSite where
  /-- The trace parameter of the nearest function around the call that has one. -/
  near : Option Ident
  token : Token
  /-- What the name of trace parameters means where the trace is inserted. -/
  meaning : TraceName
  deriving Repr, DecidableEq

/-- The trace of a call in a file whose trace name is held by `file`. -/
def TraceSite.argument (file : Option Ident) (s : TraceSite) : TraceArg :=
  match s.near with
  | some id => .parameter id
  | none => .place file (some (":" ++ toString s.token.line ++ ":" ++ toString s.token.column))

/-- Does the trace of a call mean the parameter that it should, in a place where this has its
value? -/
def TraceSite.Usable (s : TraceSite) : Prop :=
  ∀ id, s.near = some id → s.meaning = .parameter id true

/-- The trace of an extension that takes one. -/
def Env.signatureSites (env : Env) (m : TraceName) (s : Signature) (token : Token) :
    List TraceSite :=
  if s.trace then [⟨env.trace, token, m⟩] else []

/-- A trace is filled in for the last formal parameter only. -/
def Env.completeSites (env : Env) (m : TraceName) (token : Token) (facts : CallFacts)
    (args : List Expr) : List TraceSite :=
  match facts.formals with
  | none => []
  | some formals =>
    if args.any (·.isSpread) then []
    else if (formals.drop args.length).getLast?.any fun p => p.trace && ! p.automatic then
      [⟨env.trace, token, m⟩]
    else []

mutual

def Expr.traceSites (env : Env) (m : TraceName) : Expr → List TraceSite
  | .missing | .ident _ | .number .. | .string .. | .bool .. | .this _ | .super _ => []
  | .prop i facts o _ _ =>
    if facts.intrinsic = some .identity then o.traceSites env m
    else
      match facts.signature with
      | none => o.traceSites env m
      | some s =>
        match s.kind with
        | .static => []
        | .getter => o.traceSites env m ++ env.signatureSites m s i.token
        | _ => o.traceSites env m
  | .elem _ _ o x => o.traceSites env m ++ x.traceSites env m
  | .call i facts callee _ args =>
    match callRoute env.compilation facts callee args with
    | .plain =>
      callee.traceSites env m ++
        (Expr.allTraceSites env m args ++ env.completeSites m i.token facts args)
    | .pipe => Expr.pipeTraceSites env m args
    | .identity => Expr.onlyTraceSites env m args
    | .remove | .derive | .unresolved => []
    | .fuse _ =>
      if callee.isKept env.compilation then
        callee.keptTraceSites env m ++ Expr.allTraceSites env m args
      else
        callee.traceSites env m ++
          (Expr.allTraceSites env m args ++ env.completeSites m i.token facts args)
    | .chain map flatMap => Expr.doTraceSites env m map flatMap args
    | .extension _ => Expr.allTraceSites env m args ++ env.completeSites m i.token facts args
    | .method s =>
      callee.objectTraceSites env m ++
        (Expr.allTraceSites env m args ++ env.signatureSites m s i.token)
    | .function s => Expr.allTraceSites env m args ++ env.signatureSites m s i.token
    | .methodPipe => callee.objectTraceSites env m ++ Expr.stageTraceSites env m args
  | .new _ callee _ args => callee.traceSites env m ++ Expr.allTraceSites env m args
  | .binary i facts l _ r =>
    if facts.intrinsic = some .pipe then
      l.traceSites env m ++
        if r.dataFirst?.isSome then r.argumentTraceSites env m else r.traceSites env m
    else
      match facts.signature with
      | none => l.traceSites env m ++ r.traceSites env m
      | some s =>
        if s.kind = .operator then
          match env.compilation.operatorDeclaration? s.decl with
          | none => []
          | some _ => l.traceSites env m ++ (r.traceSites env m ++ env.signatureSites m s i.token)
        else l.traceSites env m ++ r.traceSites env m
  | .unary _ _ e | .paren _ e | .void _ e | .spread _ e => e.traceSites env m
  | .cond _ c t e => c.traceSites env m ++ (t.traceSites env m ++ e.traceSites env m)
  | .array _ es => Expr.allTraceSites env m es
  | .object _ ps => Property.allTraceSites env m ps
  | .arrow _ ps b e =>
    let inner := env.inside ps
    Param.allTraceSites inner (m.inside false none ps) ps ++
      (b.traceSites inner true (m.inside true none ps) ++
        if b.isMissing then e.traceSites inner (m.inside true none ps) else [])
  | .func _ self ps b =>
    let inner := env.inside ps
    Param.allTraceSites inner (m.inside false self ps) ps ++
      b.traceSites inner true (m.inside true self ps)

def Expr.allTraceSites (env : Env) (m : TraceName) : List Expr → List TraceSite
  | [] => []
  | e :: es => e.traceSites env m ++ Expr.allTraceSites env m es

def Expr.onlyTraceSites (env : Env) (m : TraceName) : List Expr → List TraceSite
  | [e] => e.traceSites env m
  | _ => []

/-- The traces in the arguments of a call. -/
def Expr.argumentTraceSites (env : Env) (m : TraceName) : Expr → List TraceSite
  | .call _ _ _ _ args => Expr.allTraceSites env m args
  | _ => []

/-- The traces in the object of a property access. -/
def Expr.objectTraceSites (env : Env) (m : TraceName) : Expr → List TraceSite
  | .prop _ _ o _ _ => o.traceSites env m
  | _ => []

/-- The traces in the arguments of a kept call, with those that are filled in. -/
def Expr.keptTraceSites (env : Env) (m : TraceName) : Expr → List TraceSite
  | .call i facts callee _ args =>
    if callRoute env.compilation facts callee args = .unresolved then []
    else Expr.allTraceSites env m args ++ env.completeSites m i.token facts args
  | _ => []

def Expr.pipeTraceSites (env : Env) (m : TraceName) : List Expr → List TraceSite
  | [] => []
  | e :: es => e.traceSites env m ++ Expr.stageTraceSites env m es

def Expr.stageTraceSites (env : Env) (m : TraceName) : List Expr → List TraceSite
  | [] => []
  | e :: es =>
    (if e.dataFirst?.isSome then e.argumentTraceSites env m else e.traceSites env m) ++
      Expr.stageTraceSites env m es

def Property.traceSites (env : Env) (m : TraceName) : Property → List TraceSite
  | .assign _ k v => (if k.isLiteralKey then [] else k.traceSites env m) ++ v.traceSites env m
  | .shorthand .. => []
  | .spread _ e => e.traceSites env m

def Property.allTraceSites (env : Env) (m : TraceName) : List Property → List TraceSite
  | [] => []
  | p :: ps => p.traceSites env m ++ Property.allTraceSites env m ps

def Param.traceSites (env : Env) (m : TraceName) : Param → List TraceSite
  | .mk _ _ _ _ _ init => init.traceSites env m

def Param.allTraceSites (env : Env) (m : TraceName) : List Param → List TraceSite
  | [] => []
  | p :: ps => p.traceSites env m ++ Param.allTraceSites env m ps

def Block.traceSites (env : Env) (body : Bool) (m : TraceName) : Block → List TraceSite
  | .missing => []
  | .mk _ _ ss => Stmt.allTraceSites env (m.within (Stmt.scope body ss)) ss

def Stmt.traceSites (env : Env) (m : TraceName) : Stmt → List TraceSite
  | .missing | .importDecl .. | .exportDecl .. => []
  | .block b => b.traceSites env false m
  | .expr _ e | .ret _ e | .throw _ e => e.traceSites env m
  | .cond _ c y n => c.traceSites env m ++ (y.traceSites env m ++ n.traceSites env m)
  | .varDecl _ _ _ ds => Declarator.allTraceSites env m ds
  | .funcDecl _ _ _ ps _ b =>
    let inner := env.inside ps
    Param.allTraceSites inner (m.inside false none ps) ps ++
      b.traceSites inner true (m.inside true none ps)
  | .classDecl _ _ _ base ms => base.traceSites env m ++ Member.allTraceSites env m ms

def Stmt.allTraceSites (env : Env) (m : TraceName) : List Stmt → List TraceSite
  | [] => []
  | s :: ss => s.traceSites env m ++ Stmt.allTraceSites env m ss

def Declarator.traceSites (env : Env) (m : TraceName) : Declarator → List TraceSite
  | .mk _ _ _ init => init.traceSites env m

def Declarator.allTraceSites (env : Env) (m : TraceName) : List Declarator → List TraceSite
  | [] => []
  | d :: ds => d.traceSites env m ++ Declarator.allTraceSites env m ds

def Member.traceSites (env : Env) (m : TraceName) : Member → List TraceSite
  | .ctor _ ps b | .method _ _ _ ps b =>
    let inner := env.inside ps
    Param.allTraceSites inner (m.inside false none ps) ps ++
      b.traceSites inner true (m.inside true none ps)
  | .field _ _ _ _ init => init.traceSites env m

def Member.allTraceSites (env : Env) (m : TraceName) : List Member → List TraceSite
  | [] => []
  | x :: xs => x.traceSites env m ++ Member.allTraceSites env m xs

/-- The traces in a Do call; of its arrow function only the statements are kept. -/
def Expr.doTraceSites (env : Env) (m : TraceName) (map flatMap : Signature) :
    List Expr → List TraceSite
  | [e] => e.arrowTraceSites env m map flatMap
  | _ => []

def Expr.arrowTraceSites (env : Env) (m : TraceName) (map flatMap : Signature) :
    Expr → List TraceSite
  | .arrow _ _ b _ => b.doTraceSites env m map flatMap
  | _ => []

def Block.doTraceSites (env : Env) (m : TraceName) (map flatMap : Signature) :
    Block → List TraceSite
  | .missing => []
  | .mk _ _ ss => Stmt.chainTraceSites env map flatMap (m.within (Stmt.segment ss)) ss

/-- The traces in the statements of a Do body. What follows a bind is the body of a function of the
bound name, up to the next bind; `m` is what the name means in front of this. -/
def Stmt.chainTraceSites (env : Env) (map flatMap : Signature) (m : TraceName) :
    List Stmt → List TraceSite
  | [] => []
  | s :: ss =>
    if ss.isEmpty && s.isReturnBind then s.boundTraceSites env m
    else if s.isBind then
      Stmt.chainTraceSites env map flatMap
          ((m.inside true none (s.boundName?.toList.map .ofIdent)).within (Stmt.segment ss)) ss ++
        (s.boundTraceSites env m ++
          env.signatureSites m (if hasBind ss then flatMap else map) s.boundExpr.token)
    else s.traceSites env m ++ Stmt.chainTraceSites env map flatMap m ss

/-- The traces in the effect that a statement binds. -/
def Stmt.boundTraceSites (env : Env) (m : TraceName) : Stmt → List TraceSite
  | .varDecl _ _ _ [.mk _ _ _ init] => init.effectTraceSites env m
  | .expr _ e | .ret _ e => e.effectTraceSites env m
  | _ => []

def Expr.effectTraceSites (env : Env) (m : TraceName) : Expr → List TraceSite
  | .call _ _ _ _ args => Expr.onlyTraceSites env m args
  | _ => []

end

/-- The calls of a file that take a trace. -/
def File.traceSites (env : Env) (f : File) : List TraceSite :=
  Stmt.allTraceSites env .free f.stmts

end ExtensionLowering
