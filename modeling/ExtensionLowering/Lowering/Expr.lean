import ExtensionLowering.Lowering.Derive
import ExtensionLowering.Lowering.Pin
import ExtensionLowering.Lowering.Route
/-!
# Lowering expressions and statements

One walk over a tree. Every rule looks at the unlowered expression, lowers the parts it keeps from
left to right and then refers to what it calls; parts that are dropped are not lowered, or their
imports are taken back.
-/
namespace ExtensionLowering

/-- A parenthesized number needs its parentheses only as the object of an access. -/
def simplifyObject : Expr → Expr
  | .paren _ (.number i text) => .number i text
  | e => e

/-- A lazy argument is passed as a function without parameters. -/
def thunkIf (lazy : Bool) (e : Expr) : Expr :=
  if lazy then .thunk e else e

def returned? : List Stmt → Option Expr
  | [.ret _ e] => if e.isMissing then none else some e
  | _ => none

/-- An arrow function with a body; a single return becomes its result. -/
def continuation (params : List Ident) (body : List Stmt) : Expr :=
  match returned? body with
  | some e => .lambda params e
  | none => .lambdaBlock params body

/-- A body as an expression; a single return becomes its value. -/
def bodyValue (body : List Stmt) : Expr :=
  (returned? body).getD (.immediate body)

namespace Lower

/-- The arguments for formal parameters that have none: derived values, and the trace if it is last.
Those skipped before a filled one are passed as `void 0`. -/
def fill (env : Env) (token : Token) : Nat → List Formal → Lower (List Expr)
  | _, [] => return []
  | skipped, p :: ps => do
    if p.automatic || (p.trace && ps.isEmpty) then
      let arg ← if p.automatic then derive env p.derivation token else trace env token
      let rest ← fill env token 0 ps
      return List.replicate skipped .voidZero ++ arg :: rest
    else fill env token (skipped + 1) ps

/-- Adds the arguments that a call lacks to its lowered arguments. Nothing is added behind a
spread. -/
def complete (env : Env) (token : Token) (facts : CallFacts) (args lowered : List Expr) :
    Lower (List Expr) := do
  match facts.formals with
  | none => return lowered
  | some formals =>
    if args.any (·.isSpread) then return lowered
    else return lowered ++ (← fill env token 0 (formals.drop args.length))

/-- `target(first, args)` -/
def dataFirstCall (env : Env) (target : Target) (token : Token) (first : Expr) (args : List Expr) :
    Lower Expr := do
  return (← targetReference env target token).apply (first :: args)

def callExtension (env : Env) (s : Signature) (token : Token) (typeArgs : List TypeRef)
    (receiver : Expr) (args : List Expr) : Lower Expr := do
  let fn ← extensionReference env s token
  return extensionCallTyped fn s.pipeable typeArgs receiver (← withTrace env s token args)

def unresolvedCall (env : Env) (token : Token) (callee : Expr) : Lower Unit := do
  match callee.calleeName? token with
  | some name => fail env (Diagnostic.invariant .noFluentSignature token [.text name])
  | none => giveUp

/-- A name, or what it stands for when it is bound to a global import. -/
def name (id : Ident) : Lower Expr := do
  match id.globalImport with
  | some g => return (Expr.ofIdent (← importAlias g.path)).member g.name
  | none => return .ident id

/-- `{ x }` with a global import `x` becomes `{ x: alias.x }`. -/
def shorthand (token : Token) (id : Option Ident) : Lower Property := do
  match id with
  | none => return .shorthand token none
  | some id =>
    if id.globalImport.isSome then return .assign token (.ofName id.name) (← name id)
    else return .shorthand token (some id)

mutual

def expr (env : Env) : Expr → Lower Expr
  | .missing => return .missing
  | .ident id => name id
  | .number i text => return .number i text
  | .string i value => return .string i value
  | .bool i value => return .bool i value
  | .this i => return .this i
  | .super i => return .super i
  | .prop i facts object member optional => do
    if facts.intrinsic = some .identity then expr env object
    else
      match facts.signature with
      | none => return .prop i facts (← expr env object) member optional
      | some s =>
        match s.kind with
        | .static => extensionReference env s i.token
        | .getter =>
          let object ← expr env object
          let fn ← extensionReference env s i.token
          return fn.apply (← withTrace env s i.token [simplifyObject object])
        | _ => return .prop i facts (← expr env object) member optional
  | .elem i facts object index => do
    let object ← expr env object
    let index ← expr env index
    match facts.signature with
    | none => return .elem i facts object index
    | some s =>
      if s.kind = .indexer then
        let fn ← extensionReference env s i.token
        return extensionCall fn s.pipeable object [index]
      else return .elem i facts object index
  | .call i facts callee typeArgs args => do
    match callRoute env.compilation facts callee args with
    | .plain =>
      let callee' ← expr env callee
      let args' ← arguments env args
      return .call i facts callee' typeArgs (← complete env i.token facts args args')
    | .pipe => stagesOf env args
    | .identity => only env args
    | .remove => return .voidZero
    | .derive => derive env facts.derivation i.token
    | .fuse target =>
      let inner ← expr env callee
      let args' ← arguments env args
      match inner, args' with
      | .call j g inner' ts inner'', [arg] =>
        if callee.isKept env.compilation then
          let fused ← dataFirstCall env target i.token arg inner''
          retract env inner'
          return fused
        else
          return .call i facts (.call j g inner' ts inner'') typeArgs
            (← complete env i.token facts args [arg])
      | inner, args' =>
        return .call i facts inner typeArgs (← complete env i.token facts args args')
    | .chain map flatMap => doArgument env map flatMap args
    | .extension s =>
      let callee' ← expr env callee
      let fn ← extensionReference env s i.token
      retract env callee'
      let args' ← arguments env args
      return .call i facts fn typeArgs (← complete env i.token facts args args')
    | .unresolved =>
      unresolvedCall env i.token callee
      return .call i facts callee typeArgs args
    | .method s =>
      let receiver ← objectOf env callee
      let args' ← exprs env args
      callExtension env s i.token typeArgs (thunkIf callee.accessed.lazy receiver) args'
    | .function s =>
      let args' ← exprs env args
      let receiver := thunkIf (args.headD .missing).lazy (args'.headD .missing)
      callExtension env s i.token typeArgs receiver (args'.drop 1)
    | .methodPipe => stages env (← objectOf env callee) args
  | .new i callee typeArgs args => do
    let callee ← expr env callee
    return .new i callee typeArgs (← exprs env args)
  | .binary i facts left op right => do
    if facts.intrinsic = some .pipe then
      let first ← expr env left
      match right.dataFirst? with
      | some target =>
        let args ← callArguments env right
        dataFirstCall env target right.token first args
      | none => return (← expr env right).apply [first]
    else
      match facts.signature with
      | none =>
        let left ← expr env left
        return .binary i facts left op (← expr env right)
      | some s =>
        if s.kind = .operator then
          match env.compilation.operatorDeclaration? s.decl with
          | none =>
            fail env (Diagnostic.invariant .noExportName i.token [.text op])
            return .binary i facts left op right
          | some d =>
            let left' ← expr env left
            let right' ← expr env right
            let fn ← declarationReference env (some d) i.token
            let args ← withTrace env s i.token [thunkIf right.lazy right']
            return extensionCall fn s.pipeable (thunkIf left.lazy left') args
        else
          let left ← expr env left
          return .binary i facts left op (← expr env right)
  | .unary i op operand => return .unary i op (← expr env operand)
  | .cond i test yes no => do
    let test ← expr env test
    let yes ← expr env yes
    return .cond i test yes (← expr env no)
  | .paren i inner => return .paren i (← expr env inner)
  | .void i inner => return .void i (← expr env inner)
  | .spread i inner => return .spread i (← expr env inner)
  | .array i elems => return .array i (← exprs env elems)
  | .object i props => return .object i (← properties env props)
  | .arrow i ps body result => do
    let inner := env.inside ps
    let ps ← params inner ps
    let body' ← block inner body
    if body.isMissing then return .arrow i ps body' (← expr inner result)
    else return .arrow i ps body' result
  | .func i self ps body => do
    let inner := env.inside ps
    let ps ← params inner ps
    return .func i self ps (← block inner body)

def exprs (env : Env) : List Expr → Lower (List Expr)
  | [] => return []
  | e :: es => do
    let e ← expr env e
    return e :: (← exprs env es)

def arguments (env : Env) : List Expr → Lower (List Expr)
  | [] => return []
  | e :: es => do
    let e' ← expr env e
    return thunkIf e.lazy e' :: (← arguments env es)

def only (env : Env) : List Expr → Lower Expr
  | [e] => expr env e
  | _ => return .missing

def callArguments (env : Env) : Expr → Lower (List Expr)
  | .call _ _ _ _ args => exprs env args
  | _ => return []

def objectOf (env : Env) : Expr → Lower Expr
  | .prop _ _ object _ _ => expr env object
  | _ => return .missing

def stagesOf (env : Env) : List Expr → Lower Expr
  | [] => return .missing
  | e :: es => do stages env (← expr env e) es

/-- Applies stages to a value one after the other. A stage with a data-first variant is called
directly with the value in front. -/
def stages (env : Env) (acc : Expr) : List Expr → Lower Expr
  | [] => return acc
  | e :: es => do
    match e.dataFirst? with
    | some target =>
      let args ← callArguments env e
      stages env (← dataFirstCall env target e.token acc args) es
    | none => stages env ((← expr env e).apply [acc]) es

def properties (env : Env) : List Property → Lower (List Property)
  | [] => return []
  | p :: ps => do
    let p ← property env p
    return p :: (← properties env ps)

def property (env : Env) : Property → Lower Property
  | .assign token key value => do
    let key ← if key.isLiteralKey then pure key else expr env key
    return .assign token key (← expr env value)
  | .shorthand token id => shorthand token id
  | .spread token inner => return .spread token (← expr env inner)

def params (env : Env) : List Param → Lower (List Param)
  | [] => return []
  | p :: ps => do
    let p ← param env p
    return p :: (← params env ps)

def param (env : Env) : Param → Lower Param
  | .mk token name type optional rest init =>
    return .mk token name type optional rest (← expr env init)

def block (env : Env) : Block → Lower Block
  | .missing => return .missing
  | .mk token unique ss => do
    let (_, hoists) ← (registerHoists env (.block token) unique).run []
    let ss ← stmts env ss
    return .mk token unique (← (insertHoists (.block token) ss).run' hoists)

def stmts (env : Env) : List Stmt → Lower (List Stmt)
  | [] => return []
  | s :: ss => do
    let s ← stmt env s
    return s :: (← stmts env ss)

def stmt (env : Env) : Stmt → Lower Stmt
  | .missing => return .missing
  | .block body => return .block (← block env body)
  | .expr token e => return .expr token (← expr env e)
  | .ret token e => return .ret token (← expr env e)
  | .throw token e => return .throw token (← expr env e)
  | .cond token test yes no => do
    let test ← expr env test
    let yes ← stmt env yes
    return .cond token test yes (← stmt env no)
  | .varDecl token exported kind ds => return .varDecl token exported kind (← declarators env ds)
  | .funcDecl token exported name ps result body => do
    let inner := env.inside ps
    let ps ← params inner ps
    return .funcDecl token exported name ps result (← block inner body)
  | .classDecl token exported name base ms => do
    let base ← expr env base
    return .classDecl token exported name base (← members env ms)
  | .importDecl token space default named module =>
    return .importDecl token space default named module
  | .exportDecl token named => return .exportDecl token named

def declarators (env : Env) : List Declarator → Lower (List Declarator)
  | [] => return []
  | d :: ds => do
    let d ← declarator env d
    return d :: (← declarators env ds)

def declarator (env : Env) : Declarator → Lower Declarator
  | .mk token name type init => return .mk token name type (← expr env init)

def members (env : Env) : List Member → Lower (List Member)
  | [] => return []
  | m :: ms => do
    let m ← member env m
    return m :: (← members env ms)

def member (env : Env) : Member → Lower Member
  | .ctor token ps body => do
    let inner := env.inside ps
    let ps ← params inner ps
    return .ctor token ps (← block inner body)
  | .method token static name ps body => do
    let inner := env.inside ps
    let ps ← params inner ps
    return .method token static name ps (← block inner body)
  | .field token static name type init => return .field token static name type (← expr env init)

def doArgument (env : Env) (map flatMap : Signature) : List Expr → Lower Expr
  | [e] => doArrow env map flatMap e
  | _ => return .missing

def doArrow (env : Env) (map flatMap : Signature) : Expr → Lower Expr
  | .arrow _ _ body _ => doBlock env map flatMap body
  | _ => return .missing

def doBlock (env : Env) (map flatMap : Signature) : Block → Lower Expr
  | .missing => return .missing
  | .mk token unique ss => do
    let (_, hoists) ← (registerHoists env (.block token) unique).run []
    let pins ← (takeHoists (.block token)).run' hoists
    if Pin.blocked pins ss then giveUp
    let (body, rest, _) ← chain env map flatMap pins ss
    return bodyValue (rest.map Pin.stmt ++ body)

/-- Lowers the statements of a Do body, the last one first. What follows a bind becomes the
continuation of its effect; it is mapped when no later effect follows. Gives the statements, the pins
that were not placed and whether no effect was met. -/
def chain (env : Env) (map flatMap : Signature) (pins : List Pin) :
    List Stmt → Lower (List Stmt × List Pin × Bool)
  | [] => return ([], pins, true)
  | s :: ss => do
    let (now, later) := Pin.after pins s
    let (rest, left, settled) ← chain env map flatMap later ss
    let rest := now.map Pin.stmt ++ rest
    if ss.isEmpty && s.isReturnBind then
      return ([.returning (← bound env s)], left, false)
    else if s.isBind then
      let sig := if settled then map else flatMap
      let effect ← bound env s
      let next := continuation s.boundName?.toList rest
      let step ← callExtension env sig s.boundExpr.token [] effect [next]
      return ([.returning step], left, false)
    else
      let s ← stmt env s
      return (s :: rest, left, settled)

def bound (env : Env) : Stmt → Lower Expr
  | .varDecl _ _ _ [d] => boundInit env d
  | .expr _ e => boundArgument env e
  | .ret _ e => boundArgument env e
  | _ => return .missing

def boundInit (env : Env) : Declarator → Lower Expr
  | .mk _ _ _ init => boundArgument env init

def boundArgument (env : Env) : Expr → Lower Expr
  | .call _ _ _ _ args => only env args
  | _ => return .missing

end

end Lower

end ExtensionLowering
