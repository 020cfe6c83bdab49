import ExtensionLowering.Alias.Declaration
import ExtensionLowering.Tree.Map
/-!
# Renaming references

Renames the free references to moved declarations. A reference is free when no enclosing block
declares its name and no enclosing function has it as a parameter or as its own name. A shorthand
property keeps its key.
-/
namespace ExtensionLowering

def declaredNames (stmts : List Stmt) : List String :=
  ((stmts.flatMap Aliases.declaredBy).filterMap id).map (·.name)

def paramNames (ps : List Param) : List String :=
  (ps.filterMap (·.name)).map (·.name)

namespace Renaming

def target? (r : Renaming) (bound : List String) (name : String) : Option Ident :=
  if bound.contains name then none else r.lookup name

def ident (r : Renaming) (bound : List String) (id : Ident) : Ident :=
  match r.target? bound id.name with
  | some binding => id.rename binding.name
  | none => id

/-- `{ foo }` becomes `{ foo: alias }`. -/
def shorthand (r : Renaming) (bound : List String) (token : Token) (name : Option Ident) :
    Property :=
  match name.bind fun id => (r.target? bound id.name).map fun binding => (id.name, binding) with
  | some (key, binding) => .assign token (.ofName key) (.ofIdent binding)
  | none => .shorthand token name

mutual

def expr (r : Renaming) (bound : List String) : Expr → Expr
  | .missing => .missing
  | .ident id => .ident (r.ident bound id)
  | .number i text => .number i text
  | .string i value => .string i value
  | .bool i value => .bool i value
  | .this i => .this i
  | .super i => .super i
  | .prop i facts o name optional => .prop i facts (expr r bound o) name optional
  | .elem i facts o x => .elem i facts (expr r bound o) (expr r bound x)
  | .call i facts c ts as => .call i facts (expr r bound c) ts (exprs r bound as)
  | .new i c ts as => .new i (expr r bound c) ts (exprs r bound as)
  | .binary i facts l op e => .binary i facts (expr r bound l) op (expr r bound e)
  | .unary i op e => .unary i op (expr r bound e)
  | .cond i c t e => .cond i (expr r bound c) (expr r bound t) (expr r bound e)
  | .paren i e => .paren i (expr r bound e)
  | .void i e => .void i (expr r bound e)
  | .spread i e => .spread i (expr r bound e)
  | .array i es => .array i (exprs r bound es)
  | .object i ps => .object i (properties r bound ps)
  | .arrow i ps b e =>
    let inner := paramNames ps ++ bound
    .arrow i (params r inner ps) (block r inner b)
      (if b.isMissing then expr r inner e else e)
  | .func i self ps b =>
    let inner := paramNames ps ++ self.toList.map (·.name) ++ bound
    .func i self (params r inner ps) (block r inner b)

def exprs (r : Renaming) (bound : List String) : List Expr → List Expr
  | [] => []
  | e :: es => expr r bound e :: exprs r bound es

def properties (r : Renaming) (bound : List String) : List Property → List Property
  | [] => []
  | p :: ps => property r bound p :: properties r bound ps

def property (r : Renaming) (bound : List String) : Property → Property
  | .assign t k v => .assign t (if k.isLiteralKey then k else expr r bound k) (expr r bound v)
  | .shorthand t name => r.shorthand bound t name
  | .spread t e => .spread t (expr r bound e)

def params (r : Renaming) (bound : List String) : List Param → List Param
  | [] => []
  | p :: ps => param r bound p :: params r bound ps

def param (r : Renaming) (bound : List String) : Param → Param
  | .mk t name type optional rest init => .mk t name type optional rest (expr r bound init)

def block (r : Renaming) (bound : List String) : Block → Block
  | .missing => .missing
  | .mk t unique ss => .mk t unique (stmts r (declaredNames ss ++ bound) ss)

def stmts (r : Renaming) (bound : List String) : List Stmt → List Stmt
  | [] => []
  | s :: ss => stmt r bound s :: stmts r bound ss

def stmt (r : Renaming) (bound : List String) : Stmt → Stmt
  | .missing => .missing
  | .block b => .block (block r bound b)
  | .expr t e => .expr t (expr r bound e)
  | .ret t e => .ret t (expr r bound e)
  | .throw t e => .throw t (expr r bound e)
  | .cond t c y n => .cond t (expr r bound c) (stmt r bound y) (stmt r bound n)
  | .varDecl t exported kind ds => .varDecl t exported kind (declarators r bound ds)
  | .funcDecl t exported name ps result b =>
    let inner := paramNames ps ++ bound
    .funcDecl t exported name (params r inner ps) result (block r inner b)
  | .classDecl t exported name base ms =>
    .classDecl t exported name (expr r bound base) (members r bound ms)
  | .importDecl t space default named module => .importDecl t space default named module
  | .exportDecl t named => .exportDecl t named

def declarators (r : Renaming) (bound : List String) : List Declarator → List Declarator
  | [] => []
  | d :: ds => declarator r bound d :: declarators r bound ds

def declarator (r : Renaming) (bound : List String) : Declarator → Declarator
  | .mk t name type init => .mk t name type (expr r bound init)

def members (r : Renaming) (bound : List String) : List Member → List Member
  | [] => []
  | m :: ms => member r bound m :: members r bound ms

def member (r : Renaming) (bound : List String) : Member → Member
  | .ctor t ps b =>
    let inner := paramNames ps ++ bound
    .ctor t (params r inner ps) (block r inner b)
  | .method t static name ps b =>
    let inner := paramNames ps ++ bound
    .method t static name (params r inner ps) (block r inner b)
  | .field t static name type init => .field t static name type (expr r bound init)

end

def references (r : Renaming) (ss : List Stmt) : List Stmt :=
  if r.isEmpty then ss else stmts r [] ss

/-- Shared identifiers of which an occurrence was renamed, by their marks: they have a new name
although they are no alias. -/
def carried (r : Renaming) (ss : List Stmt) : List (Nat × String) :=
  (ss.flatMap fun s => (Node.stmt s).idents).filterMap fun id =>
    if r.any fun (_, binding) => binding.name = id.name && binding.mark ≠ id.mark then
      id.mark.map (·, id.name)
    else none

end Renaming

/-- Gives shared identifiers, told by their marks, new names at all their occurrences. -/
def relabel (labels : List (Nat × String)) (ss : List Stmt) : List Stmt :=
  if labels.isEmpty then ss
  else
    Stmt.mapAll (fun id => (id.mark.bind fun m => labels.lookup m).elim id id.rename) ss

end ExtensionLowering
