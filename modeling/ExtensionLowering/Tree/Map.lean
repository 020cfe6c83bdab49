import ExtensionLowering.Tree.Basic
/-!
# Changing identifiers

Applies a function to every identifier of a tree: names in binding position, references, member names
and specifiers alike.
-/
namespace ExtensionLowering

def Specifier.mapIdents (f : Ident → Ident) (s : Specifier) : Specifier :=
  { name := s.name.map f, newName := s.newName.map f }

mutual

def Expr.mapIdents (f : Ident → Ident) : Expr → Expr
  | .missing => .missing
  | .ident id => .ident (f id)
  | .number i text => .number i text
  | .string i value => .string i value
  | .bool i value => .bool i value
  | .this i => .this i
  | .super i => .super i
  | .prop i facts o name optional => .prop i facts (o.mapIdents f) (name.map f) optional
  | .elem i facts o x => .elem i facts (o.mapIdents f) (x.mapIdents f)
  | .call i facts c ts as => .call i facts (c.mapIdents f) ts (Expr.mapAll f as)
  | .new i c ts as => .new i (c.mapIdents f) ts (Expr.mapAll f as)
  | .binary i facts l op r => .binary i facts (l.mapIdents f) op (r.mapIdents f)
  | .unary i op e => .unary i op (e.mapIdents f)
  | .cond i c t e => .cond i (c.mapIdents f) (t.mapIdents f) (e.mapIdents f)
  | .paren i e => .paren i (e.mapIdents f)
  | .void i e => .void i (e.mapIdents f)
  | .spread i e => .spread i (e.mapIdents f)
  | .array i es => .array i (Expr.mapAll f es)
  | .object i ps => .object i (Property.mapAll f ps)
  | .arrow i ps b e => .arrow i (Param.mapAll f ps) (b.mapIdents f) (e.mapIdents f)
  | .func i name ps b => .func i (name.map f) (Param.mapAll f ps) (b.mapIdents f)

def Expr.mapAll (f : Ident → Ident) : List Expr → List Expr
  | [] => []
  | e :: es => e.mapIdents f :: Expr.mapAll f es

def Property.mapIdents (f : Ident → Ident) : Property → Property
  | .assign t k v => .assign t (k.mapIdents f) (v.mapIdents f)
  | .shorthand t name => .shorthand t (name.map f)
  | .spread t e => .spread t (e.mapIdents f)

def Property.mapAll (f : Ident → Ident) : List Property → List Property
  | [] => []
  | p :: ps => p.mapIdents f :: Property.mapAll f ps

def Param.mapIdents (f : Ident → Ident) : Param → Param
  | .mk t name type optional rest init =>
    .mk t (name.map f) type optional rest (init.mapIdents f)

def Param.mapAll (f : Ident → Ident) : List Param → List Param
  | [] => []
  | p :: ps => p.mapIdents f :: Param.mapAll f ps

def Block.mapIdents (f : Ident → Ident) : Block → Block
  | .missing => .missing
  | .mk t unique ss => .mk t unique (Stmt.mapAll f ss)

def Stmt.mapIdents (f : Ident → Ident) : Stmt → Stmt
  | .missing => .missing
  | .block b => .block (b.mapIdents f)
  | .expr t e => .expr t (e.mapIdents f)
  | .ret t e => .ret t (e.mapIdents f)
  | .throw t e => .throw t (e.mapIdents f)
  | .cond t c y n => .cond t (c.mapIdents f) (y.mapIdents f) (n.mapIdents f)
  | .varDecl t exported kind ds => .varDecl t exported kind (Declarator.mapAll f ds)
  | .funcDecl t exported name ps result b =>
    .funcDecl t exported (name.map f) (Param.mapAll f ps) result (b.mapIdents f)
  | .classDecl t exported name base ms =>
    .classDecl t exported (name.map f) (base.mapIdents f) (Member.mapAll f ms)
  | .importDecl t space default named module =>
    .importDecl t (space.map f) (default.map f) (named.map (·.mapIdents f)) module
  | .exportDecl t named => .exportDecl t (named.map (·.mapIdents f))

def Stmt.mapAll (f : Ident → Ident) : List Stmt → List Stmt
  | [] => []
  | s :: ss => s.mapIdents f :: Stmt.mapAll f ss

def Declarator.mapIdents (f : Ident → Ident) : Declarator → Declarator
  | .mk t name type init => .mk t (name.map f) type (init.mapIdents f)

def Declarator.mapAll (f : Ident → Ident) : List Declarator → List Declarator
  | [] => []
  | d :: ds => d.mapIdents f :: Declarator.mapAll f ds

def Member.mapIdents (f : Ident → Ident) : Member → Member
  | .ctor t ps b => .ctor t (Param.mapAll f ps) (b.mapIdents f)
  | .method t static name ps b =>
    .method t static (name.map f) (Param.mapAll f ps) (b.mapIdents f)
  | .field t static name type init => .field t static (name.map f) type (init.mapIdents f)

def Member.mapAll (f : Ident → Ident) : List Member → List Member
  | [] => []
  | m :: ms => m.mapIdents f :: Member.mapAll f ms

end

end ExtensionLowering
