import ExtensionLowering.Lowering.Expr
import ExtensionLowering.Proofs.Alias.Scope
/-!
# What a walk asks for

The references that lowering may insert into a tree, said without lowering it: references to modules
and to pinned copies, in the order of the walk, each within the scopes that will be around it. A
part that is not lowered asks for nothing. The scopes are those of the tree, except that the body of
a Do call is cut into pieces: a bind opens a scope for what follows it.
-/
namespace ExtensionLowering

inductive Event where
  /-- A reference to a module. -/
  | module (path : String)
  /-- A reference to the pinned copy of a declaration. -/
  | pin (d : DeclId)
  /-- A scope that lists declarations to be copied. -/
  | listing (unique : List DeclId) (inner : List Event)
  /-- A scope that binds names; the copies that stand in it are those of `held` that the nearest
  listing asks for. -/
  | frame (names : List String) (held : List DeclId) (inner : List Event)

/-! ## References -/

/-- The module of a declaration; a declaration of the file itself has none. -/
def Env.modulePath? (env : Env) (d : Declaration) : Option String :=
  if env.isCurrentFile d.file then none else env.importPath? d

def Env.declarationEvents (env : Env) (d : Option Declaration) : List Event :=
  (d.bind env.modulePath?).toList.map .module

/-- The references to a declaration of the table. -/
def Env.declEvents (env : Env) (d : Option DeclId) : List Event :=
  env.declarationEvents (env.compilation.declaration? d)

def Ident.events (id : Ident) : List Event :=
  id.globalImport.toList.map fun g => .module g.path

/-! ## Derived values -/

/-- The references of a plan, those of its parts given. -/
def Env.planEvents (env : Env) (part : Option DerivId → List Event) : Derivation → List Event
  | .invalid _ | .emptyObject | .literal _ | .prior _ => []
  | .blockScope d => d.toList.map .pin ++ env.declEvents d
  | .implicitScope d => env.declEvents d
  | .intersection fields | .tuple fields => fields.flatMap part
  | .object fields => fields.flatMap fun f => part f.2
  | .rule rule args users lazyRule =>
    if users = 0 then env.declEvents rule ++ args.flatMap part
    else
      match lazyRule with
      | none => []
      | some wrap => env.declEvents (some wrap) ++ (env.declEvents rule ++ args.flatMap part)

def Env.derivationEvents (env : Env) : Nat → Option DerivId → List Event
  | _, none | 0, some _ => []
  | n + 1, some id =>
    match env.compilation.derivation? id with
    | none => []
    | some d => env.planEvents (env.derivationEvents n) d

def Env.deriveEvents (env : Env) (d : Option DerivId) : List Event :=
  env.derivationEvents (env.compilation.derivations.size + 1) d

/-- The references of the arguments that are filled in for formal parameters. -/
def Env.fillEvents (env : Env) : List Formal → List Event
  | [] => []
  | p :: ps => (if p.automatic then env.deriveEvents p.derivation else []) ++ env.fillEvents ps

def Env.completeEvents (env : Env) (facts : CallFacts) (args : List Expr) : List Event :=
  match facts.formals with
  | none => []
  | some formals =>
    if args.any (·.isSpread) then [] else env.fillEvents (formals.drop args.length)

/-! ## Bodies of Do calls -/

/-- Is a statement of a Do body, followed by some others, turned into a return? -/
def Stmt.endsSegment (s : Stmt) (ss : List Stmt) : Bool :=
  ss.isEmpty && s.isReturnBind || s.isBind

/-- The names that the statements before the next bind bind. -/
def Stmt.segment : List Stmt → List String
  | [] => []
  | s :: ss => if s.endsSegment ss then [] else Stmt.scope true [s] ++ Stmt.segment ss

/-- A copy of a declaration. -/
def Env.copy (env : Env) (d : DeclId) (ident : Ident) : Pin :=
  let decl := (env.compilation.declaration? (some d)).getD {}
  { name := decl.name, line := decl.line, ident }

/-- Does a statement declare the constant that a copy of the declaration follows? -/
def Env.copies (env : Env) (s : Stmt) (d : DeclId) : Bool :=
  (Pin.constants s).any (env.copy d (.synthetic "")).fits

/-- The copies that stand before the next bind. -/
def Env.placed (env : Env) : List DeclId → List Stmt → List DeclId
  | _, [] => []
  | ds, s :: ss =>
    if s.endsSegment ss then []
    else ds.filter (env.copies s) ++ env.placed (ds.filter (! env.copies s ·)) ss

/-- The copies that stand in front of the body. -/
def Env.unplaced (env : Env) (ds : List DeclId) (ss : List Stmt) : List DeclId :=
  ds.filter fun d => ! ss.any (env.copies · d)

/-! ## Trees -/

mutual

def Expr.events (env : Env) : Expr → List Event
  | .missing | .number .. | .string .. | .bool .. | .this _ | .super _ => []
  | .ident id => id.events
  | .prop _ facts o _ _ =>
    if facts.intrinsic = some .identity then o.events env
    else
      match facts.signature with
      | none => o.events env
      | some s =>
        match s.kind with
        | .static => env.declEvents s.decl
        | .getter => o.events env ++ env.declEvents s.decl
        | _ => o.events env
  | .elem _ facts o x =>
    o.events env ++ (x.events env ++
      match facts.signature with
      | none => []
      | some s => if s.kind = .indexer then env.declEvents s.decl else [])
  | .call _ facts callee _ args =>
    match callRoute env.compilation facts callee args with
    | .plain =>
      callee.events env ++ (Expr.allEvents env args ++ env.completeEvents facts args)
    | .pipe => Expr.pipeEvents env args
    | .identity => Expr.onlyEvents env args
    | .remove | .unresolved => []
    | .derive => env.deriveEvents facts.derivation
    | .fuse target =>
      callee.events env ++ (Expr.allEvents env args ++
        if callee.isKept env.compilation then env.declEvents target.decl
        else env.completeEvents facts args)
    | .chain map flatMap => Expr.doEvents env map flatMap args
    | .extension s =>
      callee.events env ++ (env.declEvents s.decl ++
        (Expr.allEvents env args ++ env.completeEvents facts args))
    | .method s =>
      callee.objectEvents env ++ (Expr.allEvents env args ++ env.declEvents s.decl)
    | .function s => Expr.allEvents env args ++ env.declEvents s.decl
    | .methodPipe => callee.objectEvents env ++ Expr.stageEvents env args
  | .new _ callee _ args => callee.events env ++ Expr.allEvents env args
  | .binary _ facts l _ r =>
    if facts.intrinsic = some .pipe then
      l.events env ++
        match r.dataFirst? with
        | some target => r.argumentEvents env ++ env.declEvents target.decl
        | none => r.events env
    else
      match facts.signature with
      | none => l.events env ++ r.events env
      | some s =>
        if s.kind = .operator then
          match env.compilation.operatorDeclaration? s.decl with
          | none => []
          | some d => l.events env ++ (r.events env ++ env.declarationEvents (some d))
        else l.events env ++ r.events env
  | .unary _ _ e | .paren _ e | .void _ e | .spread _ e => e.events env
  | .cond _ c t e => c.events env ++ (t.events env ++ e.events env)
  | .array _ es => Expr.allEvents env es
  | .object _ ps => Property.allEvents env ps
  | .arrow _ ps b e =>
    let inner := env.inside ps
    [.frame (Param.bound ps) [] (Param.allEvents inner ps ++ (b.events inner true ++
      if b.isMissing then e.events inner else []))]
  | .func _ self ps b =>
    let inner := env.inside ps
    [.frame (namesOf [self]) []
      [.frame (Param.bound ps) [] (Param.allEvents inner ps ++ b.events inner true)]]

def Expr.allEvents (env : Env) : List Expr → List Event
  | [] => []
  | e :: es => e.events env ++ Expr.allEvents env es

def Expr.onlyEvents (env : Env) : List Expr → List Event
  | [e] => e.events env
  | _ => []

/-- The references of the arguments of a call. -/
def Expr.argumentEvents (env : Env) : Expr → List Event
  | .call _ _ _ _ args => Expr.allEvents env args
  | _ => []

/-- The references of the object of a property access. -/
def Expr.objectEvents (env : Env) : Expr → List Event
  | .prop _ _ o _ _ => o.events env
  | _ => []

def Expr.pipeEvents (env : Env) : List Expr → List Event
  | [] => []
  | e :: es => e.events env ++ Expr.stageEvents env es

def Expr.stageEvents (env : Env) : List Expr → List Event
  | [] => []
  | e :: es =>
    (match e.dataFirst? with
      | some target => e.argumentEvents env ++ env.declEvents target.decl
      | none => e.events env) ++ Expr.stageEvents env es

def Property.events (env : Env) : Property → List Event
  | .assign _ k v => (if k.isLiteralKey then [] else k.events env) ++ v.events env
  | .shorthand _ name => (name.map Ident.events).getD []
  | .spread _ e => e.events env

def Property.allEvents (env : Env) : List Property → List Event
  | [] => []
  | p :: ps => p.events env ++ Property.allEvents env ps

def Param.events (env : Env) : Param → List Event
  | .mk _ _ _ _ _ init => init.events env

def Param.allEvents (env : Env) : List Param → List Event
  | [] => []
  | p :: ps => p.events env ++ Param.allEvents env ps

def Block.events (env : Env) (body : Bool) : Block → List Event
  | .missing => []
  | .mk _ unique ss =>
    [.listing unique [.frame (Stmt.scope body ss) unique (Stmt.allEvents env ss)]]

def Stmt.events (env : Env) : Stmt → List Event
  | .missing | .importDecl .. | .exportDecl .. => []
  | .block b => b.events env false
  | .expr _ e | .ret _ e | .throw _ e => e.events env
  | .cond _ c y n => c.events env ++ (y.events env ++ n.events env)
  | .varDecl _ _ _ ds => Declarator.allEvents env ds
  | .funcDecl _ _ _ ps _ b =>
    let inner := env.inside ps
    [.frame (Param.bound ps) [] (Param.allEvents inner ps ++ b.events inner true)]
  | .classDecl _ _ _ base ms => base.events env ++ Member.allEvents env ms

def Stmt.allEvents (env : Env) : List Stmt → List Event
  | [] => []
  | s :: ss => s.events env ++ Stmt.allEvents env ss

def Declarator.events (env : Env) : Declarator → List Event
  | .mk _ _ _ init => init.events env

def Declarator.allEvents (env : Env) : List Declarator → List Event
  | [] => []
  | d :: ds => d.events env ++ Declarator.allEvents env ds

def Member.events (env : Env) : Member → List Event
  | .ctor _ ps b | .method _ _ _ ps b =>
    let inner := env.inside ps
    [.frame (Param.bound ps) [] (Param.allEvents inner ps ++ b.events inner true)]
  | .field _ _ _ _ init => init.events env

def Member.allEvents (env : Env) : List Member → List Event
  | [] => []
  | m :: ms => m.events env ++ Member.allEvents env ms

/-- The references of a Do call; of its arrow function only the statements are kept. -/
def Expr.doEvents (env : Env) (map flatMap : Signature) : List Expr → List Event
  | [e] => e.arrowEvents env map flatMap
  | _ => []

def Expr.arrowEvents (env : Env) (map flatMap : Signature) : Expr → List Event
  | .arrow _ _ b _ => b.doEvents env map flatMap
  | _ => []

def Block.doEvents (env : Env) (map flatMap : Signature) : Block → List Event
  | .missing => []
  | .mk _ unique ss =>
    [.listing unique [.frame (Stmt.segment ss) (env.unplaced unique ss ++ env.placed unique ss)
      (Stmt.chainEvents env map flatMap unique ss)]]

/-- The references of the statements of a Do body, the last one first, when some copies are still to
be placed. -/
def Stmt.chainEvents (env : Env) (map flatMap : Signature) (ds : List DeclId) :
    List Stmt → List Event
  | [] => []
  | s :: ss =>
    let later := ds.filter (! env.copies s ·)
    let rest := Stmt.chainEvents env map flatMap later ss
    if ss.isEmpty && s.isReturnBind then s.boundEvents env
    else if s.isBind then
      .frame (namesOf [s.boundName?] ++ Stmt.segment ss)
          (ds.filter (env.copies s) ++ env.placed later ss) rest ::
        (s.boundEvents env ++ env.declEvents (if hasBind ss then flatMap else map).decl)
    else rest ++ s.events env

/-- The references of the effect that a statement binds. -/
def Stmt.boundEvents (env : Env) : Stmt → List Event
  | .varDecl _ _ _ [.mk _ _ _ init] => init.effectEvents env
  | .expr _ e | .ret _ e => e.effectEvents env
  | _ => []

def Expr.effectEvents (env : Env) : Expr → List Event
  | .call _ _ _ _ args => Expr.onlyEvents env args
  | _ => []

end

/-- What the walk of a file asks for. -/
def File.events (env : Env) (f : File) : List Event :=
  Stmt.allEvents env f.stmts

end ExtensionLowering
