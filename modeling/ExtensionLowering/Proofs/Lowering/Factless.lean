import ExtensionLowering.Proofs.Lowering.Hoists
/-!
# Trees without facts

Where the checker resolved nothing there is nothing to lower: the walk gives back the tree it is
given and does nothing else.
-/
namespace ExtensionLowering

def Ident.isFactless (id : Ident) : Bool :=
  id.globalImport.isNone && ! id.lazy

mutual

/-- Did the checker resolve nothing in a tree, and flag nothing in it? -/
def Expr.isFactless : Expr → Bool
  | .missing => true
  | .ident id => id.isFactless
  | .number i _ | .string i _ | .bool i _ | .this i | .super i => ! i.lazy
  | .prop i facts o _ _ => ! i.lazy && facts = {} && o.isFactless
  | .elem i facts o x => ! i.lazy && facts = {} && o.isFactless && x.isFactless
  | .call i facts c _ as => ! i.lazy && facts = {} && c.isFactless && Expr.allFactless as
  | .new i c _ as => ! i.lazy && c.isFactless && Expr.allFactless as
  | .binary i facts l _ r => ! i.lazy && facts = {} && l.isFactless && r.isFactless
  | .unary i _ e | .paren i e | .void i e | .spread i e => ! i.lazy && e.isFactless
  | .cond i c t e => ! i.lazy && c.isFactless && t.isFactless && e.isFactless
  | .array i es => ! i.lazy && Expr.allFactless es
  | .object i ps => ! i.lazy && Property.allFactless ps
  | .arrow i ps b e => ! i.lazy && Param.allFactless ps && b.isFactless && e.isFactless
  | .func i _ ps b => ! i.lazy && Param.allFactless ps && b.isFactless

def Expr.allFactless : List Expr → Bool
  | [] => true
  | e :: es => e.isFactless && Expr.allFactless es

def Property.isFactless : Property → Bool
  | .assign _ k v => k.isFactless && v.isFactless
  | .shorthand _ name => name.all (·.isFactless)
  | .spread _ e => e.isFactless

def Property.allFactless : List Property → Bool
  | [] => true
  | p :: ps => p.isFactless && Property.allFactless ps

def Param.isFactless : Param → Bool
  | .mk _ _ _ _ _ init => init.isFactless

def Param.allFactless : List Param → Bool
  | [] => true
  | p :: ps => p.isFactless && Param.allFactless ps

def Block.isFactless : Block → Bool
  | .missing => true
  | .mk _ unique ss => unique.isEmpty && Stmt.allFactless ss

def Stmt.isFactless : Stmt → Bool
  | .missing => true
  | .block b => b.isFactless
  | .expr _ e | .ret _ e | .throw _ e => e.isFactless
  | .cond _ c y n => c.isFactless && y.isFactless && n.isFactless
  | .varDecl _ _ _ ds => Declarator.allFactless ds
  | .funcDecl _ _ _ ps _ b => Param.allFactless ps && b.isFactless
  | .classDecl _ _ _ base ms => base.isFactless && Member.allFactless ms
  | .importDecl .. | .exportDecl .. => true

def Stmt.allFactless : List Stmt → Bool
  | [] => true
  | s :: ss => s.isFactless && Stmt.allFactless ss

def Declarator.isFactless : Declarator → Bool
  | .mk _ _ _ init => init.isFactless

def Declarator.allFactless : List Declarator → Bool
  | [] => true
  | d :: ds => d.isFactless && Declarator.allFactless ds

def Member.isFactless : Member → Bool
  | .ctor _ ps b => Param.allFactless ps && b.isFactless
  | .method _ _ _ ps b => Param.allFactless ps && b.isFactless
  | .field _ _ _ _ init => init.isFactless

def Member.allFactless : List Member → Bool
  | [] => true
  | m :: ms => m.isFactless && Member.allFactless ms

end

def File.isFactless (f : File) : Bool :=
  f.unique.isEmpty && Stmt.allFactless f.stmts

theorem Expr.lazy_of_factless {e : Expr} (h : e.isFactless) : e.lazy = false := by
  cases e <;> simp_all [isFactless, Ident.isFactless, lazy]

theorem callRoute_factless {callee : Expr} (h : callee.isFactless) (c : Compilation)
    (args : List Expr) : callRoute c {} callee args = .plain := by
  have hcallee : callee.dataFirst? = none := by
    cases callee <;> simp_all [Expr.isFactless, Expr.dataFirst?]
  simp [callRoute, ordinaryRoute, hcallee, CallFacts.isFluent]

namespace Pin

variable (ds : List Declarator)

theorem take_nil : take [] ds = ([], []) := by
  induction ds with
  | nil => rfl
  | cons d ds ih => simp [take, ih]

theorem unnamed_nil : unnamed [] ds = false := by
  induction ds with
  | nil => rfl
  | cons d ds ih => simp [unnamed, ih]

theorem blocked_nil (ss : List Stmt) : blocked [] ss = false := by
  induction ss with
  | nil => rfl
  | cons s ss ih => simp [blocked, after, unnamed_nil, take_nil, ih]

theorem place_nil (ss : List Stmt) : place [] ss = (ss, []) := by
  induction ss with
  | nil => rfl
  | cons s ss ih => simp [place, after, take_nil, ih]

end Pin

namespace Lower

theorem placePins_nil (ss : List Stmt) : placePins [] ss = pure (ss, []) := by
  simp [placePins, Pin.blocked_nil, Pin.place_nil]

theorem insertPins_nil (ss : List Stmt) : insertPins [] ss = pure ss := by
  simp [insertPins, placePins_nil]

attribute [local simp] Ident.isFactless Expr.isFactless Expr.allFactless Property.isFactless
  Property.allFactless Param.isFactless Param.allFactless Block.isFactless Stmt.isFactless
  Stmt.allFactless Declarator.isFactless Declarator.allFactless Member.isFactless Member.allFactless
  expr exprs arguments property properties param params block_mk stmt stmts declarator declarators
  member members

mutual

theorem expr_factless (env : Env) : ∀ e : Expr, e.isFactless → expr env e = pure e
  | .missing, _ | .number .., _ | .string .., _ | .bool .., _ | .this _, _ | .super _, _ => rfl
  | .ident id, h => by simp_all [name]
  | .prop _ _ e _ _, h | .unary _ _ e, h | .paren _ e, h | .void _ e, h | .spread _ e, h => by
    simp_all [expr_factless env e]
  | .elem _ _ o x, h | .binary _ _ o _ x, h => by
    simp_all [expr_factless env o, expr_factless env x]
  | .call _ _ c _ as, h => by
    simp_all [callRoute_factless, complete, expr_factless env c, arguments_factless env as]
  | .new _ c _ as, h => by simp_all [expr_factless env c, exprs_factless env as]
  | .cond _ c t e, h => by
    simp_all [expr_factless env c, expr_factless env t, expr_factless env e]
  | .array _ es, h => by simp_all [exprs_factless env es]
  | .object _ ps, h => by simp_all [properties_factless env ps]
  | .arrow _ ps b e, h => by
    simp_all [params_factless _ ps, block_factless _ b, expr_factless _ e]
  | .func _ _ ps b, h => by simp_all [params_factless _ ps, block_factless _ b]

theorem exprs_factless (env : Env) : ∀ es : List Expr, Expr.allFactless es → exprs env es = pure es
  | [], _ => rfl
  | e :: es, h => by simp_all [expr_factless env e, exprs_factless env es]

theorem arguments_factless (env : Env) :
    ∀ es : List Expr, Expr.allFactless es → arguments env es = pure es
  | [], _ => rfl
  | e :: es, h => by
    simp_all [expr_factless env e, arguments_factless env es, thunkIf, Expr.lazy_of_factless]

theorem properties_factless (env : Env) :
    ∀ ps : List Property, Property.allFactless ps → properties env ps = pure ps
  | [], _ => rfl
  | p :: ps, h => by simp_all [property_factless env p, properties_factless env ps]

theorem property_factless (env : Env) : ∀ p : Property, p.isFactless → property env p = pure p
  | .assign _ k v, h => by simp_all [expr_factless env k, expr_factless env v]
  | .shorthand _ none, _ => rfl
  | .shorthand _ (some id), h => by simp_all [shorthand]
  | .spread _ e, h => by simp_all [expr_factless env e]

theorem params_factless (env : Env) :
    ∀ ps : List Param, Param.allFactless ps → params env ps = pure ps
  | [], _ => rfl
  | .mk _ _ _ _ _ e :: ps, h => by simp_all [expr_factless env e, params_factless env ps]

theorem block_factless (env : Env) : ∀ b : Block, b.isFactless → block env b = pure b
  | .missing, _ => rfl
  | .mk _ unique ss, h => by simp_all [registerPins, stmts_factless env ss, insertPins_nil]

theorem stmts_factless (env : Env) : ∀ ss : List Stmt, Stmt.allFactless ss → stmts env ss = pure ss
  | [], _ => rfl
  | s :: ss, h => by simp_all [stmt_factless env s, stmts_factless env ss]

theorem stmt_factless (env : Env) : ∀ s : Stmt, s.isFactless → stmt env s = pure s
  | .missing, _ | .importDecl .., _ | .exportDecl .., _ => rfl
  | .block b, h => by simp_all [block_factless env b]
  | .expr _ e, h | .ret _ e, h | .throw _ e, h => by simp_all [expr_factless env e]
  | .cond _ c y n, h => by
    simp_all [expr_factless env c, stmt_factless env y, stmt_factless env n]
  | .varDecl _ _ _ ds, h => by simp_all [declarators_factless env ds]
  | .funcDecl _ _ _ ps _ b, h => by simp_all [params_factless _ ps, block_factless _ b]
  | .classDecl _ _ _ base ms, h => by simp_all [expr_factless env base, members_factless env ms]

theorem declarators_factless (env : Env) :
    ∀ ds : List Declarator, Declarator.allFactless ds → declarators env ds = pure ds
  | [], _ => rfl
  | .mk _ _ _ e :: ds, h => by simp_all [expr_factless env e, declarators_factless env ds]

theorem members_factless (env : Env) :
    ∀ ms : List Member, Member.allFactless ms → members env ms = pure ms
  | [], _ => rfl
  | m :: ms, h => by simp_all [member_factless env m, members_factless env ms]

theorem member_factless (env : Env) : ∀ m : Member, m.isFactless → member env m = pure m
  | .ctor _ ps b, h | .method _ _ _ ps b, h => by
    simp_all [params_factless _ ps, block_factless _ b]
  | .field _ _ _ _ init, h => by simp_all [expr_factless env init]

end

theorem file_factless (env : Env) {f : File} (h : f.isFactless) :
    file env f = pure (f.stmts, []) := by
  simp only [File.isFactless, Bool.and_eq_true, List.isEmpty_iff] at h
  simp [file_eq, h, registerPins, stmts_factless env f.stmts h.2, placePins_nil]

end Lower

end ExtensionLowering
