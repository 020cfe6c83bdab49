import ExtensionLowering.Tree.Build
/-!
# Lexical scope

Which binding a reference means, said without renaming. A function binds its parameters, a function
expression its own name around them, and a block what it declares directly; a `var` belongs to the
body of the nearest function. `refs` lists the references of a tree with the bindings they mean, and
`skeleton` is the rest of the tree.
-/
namespace ExtensionLowering

/-- The names bound by the enclosing scopes below the top level, the innermost first. -/
abbrev Scopes := List (List String)

/-- The scope and the place in it that bind a name, counted from the innermost; a name without one
is free. -/
def Scopes.resolve : Scopes → String → Option (Nat × Nat)
  | [], _ => none
  | names :: outer, x =>
    match names.idxOf? x with
    | some i => some (0, i)
    | none => (resolve outer x).map fun (depth, i) => (depth + 1, i)

/-- A reference: an identifier in expression position, or a shorthand property. -/
structure Occurrence where
  ident : Ident
  short : Bool
  target : Option (Nat × Nat)
  deriving Repr, DecidableEq

/-- The reference to an identifier within some scopes. -/
def Ident.refer (scopes : Scopes) (short : Bool) (id : Ident) : Occurrence :=
  { ident := id, short, target := scopes.resolve id.name }

def namesOf (ids : List (Option Ident)) : List String :=
  (ids.filterMap id).map (·.name)

/-- The names bound by parameters. -/
def Param.bound (ps : List Param) : List String :=
  namesOf (ps.map (·.name))

/-- The names that a statement binds in its block. -/
def Stmt.lexical : Stmt → List String
  | .varDecl _ _ .var _ => []
  | .varDecl _ _ _ ds => namesOf (ds.map (·.name))
  | .funcDecl _ _ name _ _ _ => namesOf [name]
  | .classDecl _ _ name _ _ => namesOf [name]
  | _ => []

mutual

/-- The names that a block binds in the body of its function. -/
def Block.hoisted : Block → List String
  | .missing => []
  | .mk _ _ ss => Stmt.allHoisted ss

def Stmt.hoisted : Stmt → List String
  | .block b => b.hoisted
  | .cond _ _ y n => y.hoisted ++ n.hoisted
  | .varDecl _ _ .var ds => namesOf (ds.map (·.name))
  | _ => []

def Stmt.allHoisted : List Stmt → List String
  | [] => []
  | s :: ss => s.hoisted ++ Stmt.allHoisted ss

end

/-- The scope of a block; that of a function's body has its `var` names too. -/
def Stmt.scope (body : Bool) (ss : List Stmt) : List String :=
  ss.flatMap Stmt.lexical ++ if body then Stmt.allHoisted ss else []

/-! ## Trees without `var` -/

mutual

/-- No `var` statement stands anywhere in the tree. -/
def Expr.VarFree : Expr → Prop
  | .missing | .ident _ | .number .. | .string .. | .bool .. | .this _ | .super _ => True
  | .prop _ _ o _ _ => o.VarFree
  | .elem _ _ o x => o.VarFree ∧ x.VarFree
  | .call _ _ c _ as | .new _ c _ as => c.VarFree ∧ Expr.AllVarFree as
  | .binary _ _ l _ r => l.VarFree ∧ r.VarFree
  | .unary _ _ e | .paren _ e | .void _ e | .spread _ e => e.VarFree
  | .cond _ c t e => c.VarFree ∧ t.VarFree ∧ e.VarFree
  | .array _ es => Expr.AllVarFree es
  | .object _ ps => Property.AllVarFree ps
  | .arrow _ ps b e => Param.AllVarFree ps ∧ b.VarFree ∧ e.VarFree
  | .func _ _ ps b => Param.AllVarFree ps ∧ b.VarFree

def Expr.AllVarFree : List Expr → Prop
  | [] => True
  | e :: es => e.VarFree ∧ Expr.AllVarFree es

def Property.VarFree : Property → Prop
  | .assign _ k v => k.VarFree ∧ v.VarFree
  | .shorthand .. => True
  | .spread _ e => e.VarFree

def Property.AllVarFree : List Property → Prop
  | [] => True
  | p :: ps => p.VarFree ∧ Property.AllVarFree ps

def Param.VarFree : Param → Prop
  | .mk _ _ _ _ _ init => init.VarFree

def Param.AllVarFree : List Param → Prop
  | [] => True
  | p :: ps => p.VarFree ∧ Param.AllVarFree ps

def Block.VarFree : Block → Prop
  | .missing => True
  | .mk _ _ ss => Stmt.AllVarFree ss

def Stmt.VarFree : Stmt → Prop
  | .missing | .importDecl .. | .exportDecl .. => True
  | .block b => b.VarFree
  | .expr _ e | .ret _ e | .throw _ e => e.VarFree
  | .cond _ c y n => c.VarFree ∧ y.VarFree ∧ n.VarFree
  | .varDecl _ _ kind ds => kind ≠ .var ∧ Declarator.AllVarFree ds
  | .funcDecl _ _ _ ps _ b => Param.AllVarFree ps ∧ b.VarFree
  | .classDecl _ _ _ base ms => base.VarFree ∧ Member.AllVarFree ms

def Stmt.AllVarFree : List Stmt → Prop
  | [] => True
  | s :: ss => s.VarFree ∧ Stmt.AllVarFree ss

def Declarator.VarFree : Declarator → Prop
  | .mk _ _ _ init => init.VarFree

def Declarator.AllVarFree : List Declarator → Prop
  | [] => True
  | d :: ds => d.VarFree ∧ Declarator.AllVarFree ds

def Member.VarFree : Member → Prop
  | .ctor _ ps b | .method _ _ _ ps b => Param.AllVarFree ps ∧ b.VarFree
  | .field _ _ _ _ init => init.VarFree

def Member.AllVarFree : List Member → Prop
  | [] => True
  | m :: ms => m.VarFree ∧ Member.AllVarFree ms

end

/-- No `var` statement stands below a top-level statement. -/
def Stmt.VarFreeBelow : Stmt → Prop
  | .varDecl _ _ _ ds => Declarator.AllVarFree ds
  | s => s.VarFree

/-! ## References -/

mutual

def Expr.refs (scopes : Scopes) : Expr → List Occurrence
  | .missing | .number .. | .string .. | .bool .. | .this _ | .super _ => []
  | .ident id => [id.refer scopes false]
  | .prop _ _ o _ _ => o.refs scopes
  | .elem _ _ o x => o.refs scopes ++ x.refs scopes
  | .call _ _ c _ as | .new _ c _ as => c.refs scopes ++ Expr.allRefs scopes as
  | .binary _ _ l _ r => l.refs scopes ++ r.refs scopes
  | .unary _ _ e | .paren _ e | .void _ e | .spread _ e => e.refs scopes
  | .cond _ c t e => c.refs scopes ++ t.refs scopes ++ e.refs scopes
  | .array _ es => Expr.allRefs scopes es
  | .object _ ps => Property.allRefs scopes ps
  | .arrow _ ps b e =>
    let inner := Param.bound ps :: scopes
    Param.allRefs inner ps ++ b.refs inner true ++ if b.isMissing then e.refs inner else []
  | .func _ self ps b =>
    let inner := Param.bound ps :: namesOf [self] :: scopes
    Param.allRefs inner ps ++ b.refs inner true

def Expr.allRefs (scopes : Scopes) : List Expr → List Occurrence
  | [] => []
  | e :: es => e.refs scopes ++ Expr.allRefs scopes es

def Property.refs (scopes : Scopes) : Property → List Occurrence
  | .assign _ k v => (if k.isLiteralKey then [] else k.refs scopes) ++ v.refs scopes
  | .shorthand _ name => name.toList.map (Ident.refer scopes true)
  | .spread _ e => e.refs scopes

def Property.allRefs (scopes : Scopes) : List Property → List Occurrence
  | [] => []
  | p :: ps => p.refs scopes ++ Property.allRefs scopes ps

def Param.refs (scopes : Scopes) : Param → List Occurrence
  | .mk _ _ _ _ _ init => init.refs scopes

def Param.allRefs (scopes : Scopes) : List Param → List Occurrence
  | [] => []
  | p :: ps => p.refs scopes ++ Param.allRefs scopes ps

def Block.refs (scopes : Scopes) (body : Bool) : Block → List Occurrence
  | .missing => []
  | .mk _ _ ss => Stmt.allRefs (Stmt.scope body ss :: scopes) ss

def Stmt.refs (scopes : Scopes) : Stmt → List Occurrence
  | .missing | .importDecl .. | .exportDecl .. => []
  | .block b => b.refs scopes false
  | .expr _ e | .ret _ e | .throw _ e => e.refs scopes
  | .cond _ c y n => c.refs scopes ++ y.refs scopes ++ n.refs scopes
  | .varDecl _ _ _ ds => Declarator.allRefs scopes ds
  | .funcDecl _ _ _ ps _ b =>
    let inner := Param.bound ps :: scopes
    Param.allRefs inner ps ++ b.refs inner true
  | .classDecl _ _ _ base ms => base.refs scopes ++ Member.allRefs scopes ms

def Stmt.allRefs (scopes : Scopes) : List Stmt → List Occurrence
  | [] => []
  | s :: ss => s.refs scopes ++ Stmt.allRefs scopes ss

def Declarator.refs (scopes : Scopes) : Declarator → List Occurrence
  | .mk _ _ _ init => init.refs scopes

def Declarator.allRefs (scopes : Scopes) : List Declarator → List Occurrence
  | [] => []
  | d :: ds => d.refs scopes ++ Declarator.allRefs scopes ds

def Member.refs (scopes : Scopes) : Member → List Occurrence
  | .ctor _ ps b | .method _ _ _ ps b =>
    let inner := Param.bound ps :: scopes
    Param.allRefs inner ps ++ b.refs inner true
  | .field _ _ _ _ init => init.refs scopes

def Member.allRefs (scopes : Scopes) : List Member → List Occurrence
  | [] => []
  | m :: ms => m.refs scopes ++ Member.allRefs scopes ms

end

/-! ## The rest of a tree -/

/-- What stands in a skeleton for a reference. -/
def hole : Expr :=
  .ident { name := "" }

mutual

/-- The tree without its references; a shorthand property is written with its key. -/
def Expr.skeleton : Expr → Expr
  | .missing => .missing
  | .ident _ => hole
  | .number i text => .number i text
  | .string i value => .string i value
  | .bool i value => .bool i value
  | .this i => .this i
  | .super i => .super i
  | .prop i facts o name optional => .prop i facts o.skeleton name optional
  | .elem i facts o x => .elem i facts o.skeleton x.skeleton
  | .call i facts c ts as => .call i facts c.skeleton ts (Expr.skeletons as)
  | .new i c ts as => .new i c.skeleton ts (Expr.skeletons as)
  | .binary i facts l op r => .binary i facts l.skeleton op r.skeleton
  | .unary i op e => .unary i op e.skeleton
  | .cond i c t e => .cond i c.skeleton t.skeleton e.skeleton
  | .paren i e => .paren i e.skeleton
  | .void i e => .void i e.skeleton
  | .spread i e => .spread i e.skeleton
  | .array i es => .array i (Expr.skeletons es)
  | .object i ps => .object i (Property.skeletons ps)
  | .arrow i ps b e =>
    .arrow i (Param.skeletons ps) b.skeleton (if b.isMissing then e.skeleton else e)
  | .func i self ps b => .func i self (Param.skeletons ps) b.skeleton

def Expr.skeletons : List Expr → List Expr
  | [] => []
  | e :: es => e.skeleton :: Expr.skeletons es

def Property.skeleton : Property → Property
  | .assign t k v => .assign t (if k.isLiteralKey then k else k.skeleton) v.skeleton
  | .shorthand t none => .shorthand t none
  | .shorthand t (some id) => .assign t (.ofName id.name) hole
  | .spread t e => .spread t e.skeleton

def Property.skeletons : List Property → List Property
  | [] => []
  | p :: ps => p.skeleton :: Property.skeletons ps

def Param.skeleton : Param → Param
  | .mk t name type optional rest init => .mk t name type optional rest init.skeleton

def Param.skeletons : List Param → List Param
  | [] => []
  | p :: ps => p.skeleton :: Param.skeletons ps

def Block.skeleton : Block → Block
  | .missing => .missing
  | .mk t unique ss => .mk t unique (Stmt.skeletons ss)

def Stmt.skeleton : Stmt → Stmt
  | .missing => .missing
  | .block b => .block b.skeleton
  | .expr t e => .expr t e.skeleton
  | .ret t e => .ret t e.skeleton
  | .throw t e => .throw t e.skeleton
  | .cond t c y n => .cond t c.skeleton y.skeleton n.skeleton
  | .varDecl t exported kind ds => .varDecl t exported kind (Declarator.skeletons ds)
  | .funcDecl t exported name ps result b =>
    .funcDecl t exported name (Param.skeletons ps) result b.skeleton
  | .classDecl t exported name base ms =>
    .classDecl t exported name base.skeleton (Member.skeletons ms)
  | .importDecl t space default named module => .importDecl t space default named module
  | .exportDecl t named => .exportDecl t named

def Stmt.skeletons : List Stmt → List Stmt
  | [] => []
  | s :: ss => s.skeleton :: Stmt.skeletons ss

def Declarator.skeleton : Declarator → Declarator
  | .mk t name type init => .mk t name type init.skeleton

def Declarator.skeletons : List Declarator → List Declarator
  | [] => []
  | d :: ds => d.skeleton :: Declarator.skeletons ds

def Member.skeleton : Member → Member
  | .ctor t ps b => .ctor t (Param.skeletons ps) b.skeleton
  | .method t static name ps b => .method t static name (Param.skeletons ps) b.skeleton
  | .field t static name type init => .field t static name type init.skeleton

def Member.skeletons : List Member → List Member
  | [] => []
  | m :: ms => m.skeleton :: Member.skeletons ms

end

end ExtensionLowering
