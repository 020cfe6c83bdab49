import ExtensionLowering.Lowering.Expr
/-!
# Hand-overs

What a call-like site hands over to what it calls, said without lowering it. `offers` lists the
expressions of a tree that its sites hand over; what is dropped by lowering is not among them.
`Becomes` relates a tree to a lowered one, rule by rule, and records where each of these expressions
went. A rule leaves open whether an expression is passed as it is or as a function.
-/
namespace ExtensionLowering

/-- What an expression is to the site that hands it over. -/
inductive Role where
  /-- An argument of a call that keeps its arguments, or of a curried call that is fused. -/
  | argument
  /-- The receiver of a fluent call. -/
  | receiver
  /-- An operand of an operator with an extension. -/
  | operand
  /-- Another argument of a fluent call. -/
  | fluentArgument
  /-- The first value of a pipe whose first stage is fused. -/
  | seed
  /-- An argument of a stage that is fused. -/
  | stageArgument
  deriving Repr, DecidableEq

/-- Is a lazy expression in this role passed as a function? -/
def Role.delays : Role → Bool
  | .argument | .receiver | .operand => true
  | .fluentArgument | .seed | .stageArgument => false

/-- An expression that a site hands over. -/
structure Offer where
  role : Role
  given : Expr

/-- An offer with the lowered expression and with what is passed in its place. -/
structure Handover extends Offer where
  lowered : Expr
  passed : Expr

/-- A lazy expression is passed as a function of its lowered form, any other as it is. -/
def Handover.Honoured (h : Handover) : Prop :=
  h.passed = thunkIf h.given.lazy h.lowered

/-! ## What is handed over -/

/-- Is the first of some stages fused with the value it is applied to? -/
def startsFused (stages : List Expr) : Bool :=
  stages.head?.any (·.dataFirst?.isSome)

def seedOffer (e : Expr) (stages : List Expr) : List Offer :=
  if startsFused stages then [⟨.seed, e⟩] else []

mutual

def Expr.offers (c : Compilation) : Expr → List Offer
  | .missing | .ident _ | .number .. | .string .. | .bool .. | .this _ | .super _ => []
  | .prop _ facts o _ _ =>
    if facts.intrinsic ≠ some .identity ∧ facts.signature.any (·.kind = .static) then []
    else o.offers c
  | .elem _ _ o x => o.offers c ++ x.offers c
  | .call _ facts callee _ args =>
    match callRoute c facts callee args with
    | .plain => callee.offers c ++ Expr.handed c .argument args
    | .pipe => Expr.pipeOffers c args
    | .identity => Expr.allOffers c args
    | .remove | .derive | .unresolved => []
    | .fuse _ =>
      (if callee.isKept c then callee.keptOffers c else callee.offers c) ++
        Expr.handed c .argument args
    | .chain _ _ => Expr.doOffers c args
    | .extension _ => Expr.handed c .argument args
    | .method _ =>
      ⟨.receiver, callee.accessed⟩ :: callee.accessedOffers c ++
        Expr.handed c .fluentArgument args
    | .function _ => Expr.fluentOffers c args
    | .methodPipe =>
      seedOffer callee.accessed args ++ callee.accessedOffers c ++ Expr.stageOffers c args
  | .new _ callee _ args => callee.offers c ++ Expr.allOffers c args
  | .binary _ facts l _ r =>
    if facts.intrinsic = some .pipe then
      seedOffer l [r] ++ l.offers c ++
        if r.dataFirst?.isSome then r.stageArgumentOffers c else r.offers c
    else
      match facts.signature with
      | none => l.offers c ++ r.offers c
      | some s =>
        if s.kind = .operator then
          match c.operatorDeclaration? s.decl with
          | none => []
          | some _ => ⟨.operand, l⟩ :: l.offers c ++ ⟨.operand, r⟩ :: r.offers c
        else l.offers c ++ r.offers c
  | .unary _ _ e | .paren _ e | .void _ e | .spread _ e => e.offers c
  | .cond _ t y n => t.offers c ++ y.offers c ++ n.offers c
  | .array _ es => Expr.allOffers c es
  | .object _ ps => Property.allOffers c ps
  | .arrow _ ps b e =>
    Param.allOffers c ps ++ b.offers c ++ if b.isMissing then e.offers c else []
  | .func _ _ ps b => Param.allOffers c ps ++ b.offers c

def Expr.allOffers (c : Compilation) : List Expr → List Offer
  | [] => []
  | e :: es => e.offers c ++ Expr.allOffers c es

/-- The offers of a site that hands over some expressions in one role. -/
def Expr.handed (c : Compilation) (role : Role) : List Expr → List Offer
  | [] => []
  | e :: es => ⟨role, e⟩ :: e.offers c ++ Expr.handed c role es

/-- The offers of the arguments of a call that is kept. -/
def Expr.keptOffers (c : Compilation) : Expr → List Offer
  | .call _ facts callee _ args =>
    if callRoute c facts callee args = .unresolved then [] else Expr.handed c .argument args
  | _ => []

def Expr.accessedOffers (c : Compilation) : Expr → List Offer
  | .prop _ _ o _ _ => o.offers c
  | _ => []

/-- The offers of a fluent call in call form. -/
def Expr.fluentOffers (c : Compilation) : List Expr → List Offer
  | [] => []
  | e :: es => ⟨.receiver, e⟩ :: e.offers c ++ Expr.handed c .fluentArgument es

def Expr.pipeOffers (c : Compilation) : List Expr → List Offer
  | [] => []
  | e :: es => seedOffer e es ++ e.offers c ++ Expr.stageOffers c es

def Expr.stageOffers (c : Compilation) : List Expr → List Offer
  | [] => []
  | e :: es =>
    (if e.dataFirst?.isSome then e.stageArgumentOffers c else e.offers c) ++
      Expr.stageOffers c es

def Expr.stageArgumentOffers (c : Compilation) : Expr → List Offer
  | .call _ _ _ _ args => Expr.handed c .stageArgument args
  | _ => []

def Property.offers (c : Compilation) : Property → List Offer
  | .assign _ k v => (if k.isLiteralKey then [] else k.offers c) ++ v.offers c
  | .shorthand .. => []
  | .spread _ e => e.offers c

def Property.allOffers (c : Compilation) : List Property → List Offer
  | [] => []
  | p :: ps => p.offers c ++ Property.allOffers c ps

def Param.offers (c : Compilation) : Param → List Offer
  | .mk _ _ _ _ _ init => init.offers c

def Param.allOffers (c : Compilation) : List Param → List Offer
  | [] => []
  | p :: ps => p.offers c ++ Param.allOffers c ps

def Block.offers (c : Compilation) : Block → List Offer
  | .missing => []
  | .mk _ _ ss => Stmt.allOffers c ss

def Stmt.offers (c : Compilation) : Stmt → List Offer
  | .missing | .importDecl .. | .exportDecl .. => []
  | .block b => b.offers c
  | .expr _ e | .ret _ e | .throw _ e => e.offers c
  | .cond _ t y n => t.offers c ++ y.offers c ++ n.offers c
  | .varDecl _ _ _ ds => Declarator.allOffers c ds
  | .funcDecl _ _ _ ps _ b => Param.allOffers c ps ++ b.offers c
  | .classDecl _ _ _ base ms => base.offers c ++ Member.allOffers c ms

def Stmt.allOffers (c : Compilation) : List Stmt → List Offer
  | [] => []
  | s :: ss => s.offers c ++ Stmt.allOffers c ss

def Declarator.offers (c : Compilation) : Declarator → List Offer
  | .mk _ _ _ init => init.offers c

def Declarator.allOffers (c : Compilation) : List Declarator → List Offer
  | [] => []
  | d :: ds => d.offers c ++ Declarator.allOffers c ds

def Member.offers (c : Compilation) : Member → List Offer
  | .ctor _ ps b | .method _ _ _ ps b => Param.allOffers c ps ++ b.offers c
  | .field _ _ _ _ init => init.offers c

def Member.allOffers (c : Compilation) : List Member → List Offer
  | [] => []
  | m :: ms => m.offers c ++ Member.allOffers c ms

/-- The offers of a Do call; of its arrow function only the statements are kept. -/
def Expr.doOffers (c : Compilation) : List Expr → List Offer
  | [.arrow _ _ b _] => b.doOffers c
  | _ => []

def Block.doOffers (c : Compilation) : Block → List Offer
  | .missing => []
  | .mk _ _ ss => Stmt.chainOffers c ss

/-- The offers of the statements of a Do body, the last one first; a bind is dropped around its
effect. -/
def Stmt.chainOffers (c : Compilation) : List Stmt → List Offer
  | [] => []
  | s :: ss =>
    Stmt.chainOffers c ss ++
      if ss.isEmpty && s.isReturnBind || s.isBind then s.boundOffers c else s.offers c

def Stmt.boundOffers (c : Compilation) : Stmt → List Offer
  | .varDecl _ _ _ [.mk _ _ _ init] => init.effectOffers c
  | .expr _ e | .ret _ e => e.effectOffers c
  | _ => []

def Expr.effectOffers (c : Compilation) : Expr → List Offer
  | .call _ _ _ _ args => Expr.allOffers c args
  | _ => []

end

/-! ## Where it went -/

/-- A value that a step gives in some state. -/
def Lower.Gives {α : Type} (op : Lower α) (a : α) : Prop :=
  ∃ u, (op.run u).1 = a

/-- An expression without parts that lowering looks at. -/
def Expr.isLeaf : Expr → Bool
  | .missing | .number .. | .string .. | .bool .. | .this _ | .super _ => true
  | _ => false

mutual

inductive Expr.Becomes : Env → Expr → Expr → List Handover → Prop
  | leaf : e.isLeaf → Expr.Becomes env e e []
  | name : (Lower.name x).Gives e → Expr.Becomes env (.ident x) e []
  | access : facts.intrinsic ≠ some .identity →
      (∀ s, facts.signature = some s → s.kind ≠ .static ∧ s.kind ≠ .getter) →
      Expr.Becomes env o o' hs → Expr.Becomes env (.prop i facts o n q) (.prop i facts o' n q) hs
  | identityAccess : facts.intrinsic = some .identity →
      Expr.Becomes env o o' hs → Expr.Becomes env (.prop i facts o n q) o' hs
  | static : facts.intrinsic ≠ some .identity → facts.signature = some s → s.kind = .static →
      (Lower.extensionReference env s i.token).Gives fn →
      Expr.Becomes env (.prop i facts o n q) fn []
  | getter : facts.intrinsic ≠ some .identity → facts.signature = some s → s.kind = .getter →
      Expr.Becomes env o o' hs → (Lower.extensionReference env s i.token).Gives fn →
      (Lower.withTrace env s i.token []).Gives extra →
      Expr.Becomes env (.prop i facts o n q) (fn.apply (simplifyObject o' :: extra)) hs
  | elem : (∀ s, facts.signature = some s → s.kind ≠ .indexer) →
      Expr.Becomes env o o' hs → Expr.Becomes env x x' hs' →
      Expr.Becomes env (.elem i facts o x) (.elem i facts o' x') (hs ++ hs')
  | indexer : facts.signature = some s → s.kind = .indexer →
      Expr.Becomes env o o' hs → Expr.Becomes env x x' hs' →
      (Lower.extensionReference env s i.token).Gives fn →
      Expr.Becomes env (.elem i facts o x) (extensionCall fn s.pipeable o' [x']) (hs ++ hs')
  | call : callRoute env.compilation facts callee args = .plain →
      Expr.Becomes env callee callee' hs →
      Expr.KeepsArgs env (.call i facts callee ts args) args' hs' →
      Expr.Becomes env (.call i facts callee ts args) (.call i facts callee' ts args') (hs ++ hs')
  /-- The callee of a curried call is called itself where it has become something else. -/
  | curried : callRoute env.compilation facts callee args = .fuse target →
      callee.isKept env.compilation = false → Expr.Becomes env callee callee' hs →
      Expr.KeepsArgs env (.call i facts callee ts args) args' hs' →
      Expr.Becomes env (.call i facts callee ts args) (.call i facts callee' ts args') (hs ++ hs')
  | fused : callRoute env.compilation facts callee [arg] = .fuse target →
      callee.isKept env.compilation = true → Expr.KeepsArgs env callee args' hs →
      Expr.Handed env .argument arg arg' hs' →
      (Lower.targetReference env target i.token).Gives fn →
      Expr.Becomes env (.call i facts callee ts [arg]) (fn.apply (arg' :: args')) (hs ++ hs')
  | extension : callRoute env.compilation facts callee args = .extension s →
      (Lower.extensionReference env s i.token).Gives fn →
      Expr.KeepsArgs env (.call i facts callee ts args) args' hs →
      Expr.Becomes env (.call i facts callee ts args) (.call i facts fn ts args') hs
  | method : callRoute env.compilation facts (.prop j g o n q) args = .method s →
      Expr.Handed env .receiver o o' hs → Expr.AllHanded env .fluentArgument args args' hs' →
      (Lower.extensionReference env s i.token).Gives fn →
      (Lower.withTrace env s i.token []).Gives extra →
      Expr.Becomes env (.call i facts (.prop j g o n q) ts args)
        (extensionCallTyped fn s.pipeable ts o' (args' ++ extra)) (hs ++ hs')
  | function : callRoute env.compilation facts callee (e :: es) = .function s →
      Expr.Handed env .receiver e e' hs → Expr.AllHanded env .fluentArgument es es' hs' →
      (Lower.extensionReference env s i.token).Gives fn →
      (Lower.withTrace env s i.token []).Gives extra →
      Expr.Becomes env (.call i facts callee ts (e :: es))
        (extensionCallTyped fn s.pipeable ts e' (es' ++ extra)) (hs ++ hs')
  | pipe : callRoute env.compilation facts callee (e :: es) = .pipe →
      Expr.Seeded env e es e' hs → Expr.Piped env e' es out hs' →
      Expr.Becomes env (.call i facts callee ts (e :: es)) out (hs ++ hs')
  | methodPipe : callRoute env.compilation facts (.prop j g o n q) es = .methodPipe →
      Expr.Seeded env o es o' hs → Expr.Piped env o' es out hs' →
      Expr.Becomes env (.call i facts (.prop j g o n q) ts es) out (hs ++ hs')
  | identity : callRoute env.compilation facts callee [e] = .identity →
      Expr.Becomes env e e' hs → Expr.Becomes env (.call i facts callee ts [e]) e' hs
  | remove : callRoute env.compilation facts callee args = .remove →
      Expr.Becomes env (.call i facts callee ts args) .voidZero []
  | derive : callRoute env.compilation facts callee args = .derive →
      (Lower.derive env facts.derivation i.token).Gives e →
      Expr.Becomes env (.call i facts callee ts args) e []
  | unresolved : callRoute env.compilation facts callee args = .unresolved →
      Expr.Becomes env (.call i facts callee ts args) (.call i facts callee ts args) []
  /-- Pins may stand in front of the statements of a Do body. -/
  | chain (pins : List Pin) :
      callRoute env.compilation facts callee [.arrow j ps (.mk t unique ss) r] = .chain m fm →
      Stmt.Chained env m fm ss out settled hs →
      Expr.Becomes env (.call i facts callee ts [.arrow j ps (.mk t unique ss) r])
        (bodyValue (pins.map Pin.stmt ++ out)) hs
  | new : Expr.Becomes env callee callee' hs → Expr.AllBecome env args args' hs' →
      Expr.Becomes env (.new i callee ts args) (.new i callee' ts args') (hs ++ hs')
  | pipeOperator : facts.intrinsic = some .pipe →
      Expr.Seeded env l [r] l' hs → Expr.Piped env l' [r] out hs' →
      Expr.Becomes env (.binary i facts l op r) out (hs ++ hs')
  | operator : facts.intrinsic ≠ some .pipe → facts.signature = some s → s.kind = .operator →
      env.compilation.operatorDeclaration? s.decl = some d →
      Expr.Handed env .operand l l' hs → Expr.Handed env .operand r r' hs' →
      (Lower.declarationReference env (some d) i.token).Gives fn →
      (Lower.withTrace env s i.token []).Gives extra →
      Expr.Becomes env (.binary i facts l op r) (extensionCall fn s.pipeable l' (r' :: extra))
        (hs ++ hs')
  | undeclaredOperator : facts.intrinsic ≠ some .pipe → facts.signature = some s →
      s.kind = .operator → env.compilation.operatorDeclaration? s.decl = none →
      Expr.Becomes env (.binary i facts l op r) (.binary i facts l op r) []
  | binary : facts.intrinsic ≠ some .pipe →
      (∀ s, facts.signature = some s → s.kind ≠ .operator) →
      Expr.Becomes env l l' hs → Expr.Becomes env r r' hs' →
      Expr.Becomes env (.binary i facts l op r) (.binary i facts l' op r') (hs ++ hs')
  | unary : Expr.Becomes env e e' hs → Expr.Becomes env (.unary i op e) (.unary i op e') hs
  | cond : Expr.Becomes env t t' hs → Expr.Becomes env y y' hs' → Expr.Becomes env n n' hs'' →
      Expr.Becomes env (.cond i t y n) (.cond i t' y' n') (hs ++ hs' ++ hs'')
  | paren : Expr.Becomes env e e' hs → Expr.Becomes env (.paren i e) (.paren i e') hs
  | void : Expr.Becomes env e e' hs → Expr.Becomes env (.void i e) (.void i e') hs
  | spread : Expr.Becomes env e e' hs → Expr.Becomes env (.spread i e) (.spread i e') hs
  | array : Expr.AllBecome env es es' hs → Expr.Becomes env (.array i es) (.array i es') hs
  | object : Property.AllBecome env ps ps' hs → Expr.Becomes env (.object i ps) (.object i ps') hs
  | concise : Param.AllBecome (env.inside ps) ps ps' hs → Expr.Becomes (env.inside ps) e e' hs' →
      Expr.Becomes env (.arrow i ps .missing e) (.arrow i ps' .missing e') (hs ++ hs')
  | arrow : Param.AllBecome (env.inside ps) ps ps' hs → Block.Becomes (env.inside ps) b b' hs' →
      b.isMissing = false → Expr.Becomes env (.arrow i ps b e) (.arrow i ps' b' e) (hs ++ hs')
  | func : Param.AllBecome (env.inside ps) ps ps' hs → Block.Becomes (env.inside ps) b b' hs' →
      Expr.Becomes env (.func i n ps b) (.func i n ps' b') (hs ++ hs')

inductive Expr.AllBecome : Env → List Expr → List Expr → List Handover → Prop
  | nil : Expr.AllBecome env [] [] []
  | cons : Expr.Becomes env e e' hs → Expr.AllBecome env es es' hs' →
      Expr.AllBecome env (e :: es) (e' :: es') (hs ++ hs')

/-- An expression is passed once, wrapped or not, in some role. -/
inductive Expr.Handed : Env → Role → Expr → Expr → List Handover → Prop
  | mk (wrapped : Bool) : Expr.Becomes env e e' hs →
      Expr.Handed env role e (thunkIf wrapped e') (⟨⟨role, e⟩, e', thunkIf wrapped e'⟩ :: hs)

inductive Expr.AllHanded : Env → Role → List Expr → List Expr → List Handover → Prop
  | nil : Expr.AllHanded env role [] [] []
  | cons : Expr.Handed env role e e' hs → Expr.AllHanded env role es es' hs' →
      Expr.AllHanded env role (e :: es) (e' :: es') (hs ++ hs')

/-- The arguments of a call that is kept, with those it lacks behind them. -/
inductive Expr.KeepsArgs : Env → Expr → List Expr → List Handover → Prop
  | filled : callRoute env.compilation facts callee args ≠ .unresolved →
      Expr.AllHanded env .argument args args' hs →
      (Lower.complete env i.token facts args []).Gives extra →
      Expr.KeepsArgs env (.call i facts callee ts args) (args' ++ extra) hs
  | unresolved : callRoute env.compilation facts callee args = .unresolved →
      Expr.KeepsArgs env (.call i facts callee ts args) args []

/-- The first value of a pipe is handed over to a stage that is fused. -/
inductive Expr.Seeded : Env → Expr → List Expr → Expr → List Handover → Prop
  | fused : startsFused stages = true → Expr.Handed env .seed e e' hs →
      Expr.Seeded env e stages e' hs
  | applied : startsFused stages = false → Expr.Becomes env e e' hs →
      Expr.Seeded env e stages e' hs

/-- A lowered value goes through stages one after the other. -/
inductive Expr.Piped : Env → Expr → List Expr → Expr → List Handover → Prop
  | nil : Expr.Piped env acc [] acc []
  | cons : Expr.Staged env acc e acc' hs → Expr.Piped env acc' es out hs' →
      Expr.Piped env acc (e :: es) out (hs ++ hs')

inductive Expr.Staged : Env → Expr → Expr → Expr → List Handover → Prop
  | fused : facts.dataFirst = some target →
      Expr.AllHanded env .stageArgument args args' hs →
      (Lower.targetReference env target i.token).Gives fn →
      Expr.Staged env acc (.call i facts callee ts args) (fn.apply (acc :: args')) hs
  | applied : e.dataFirst? = none → Expr.Becomes env e fn hs →
      Expr.Staged env acc e (fn.apply [acc]) hs

inductive Property.Becomes : Env → Property → Property → List Handover → Prop
  | assign : k.isLiteralKey = false → Expr.Becomes env k k' hs → Expr.Becomes env v v' hs' →
      Property.Becomes env (.assign t k v) (.assign t k' v') (hs ++ hs')
  | literal : k.isLiteralKey = true → Expr.Becomes env v v' hs →
      Property.Becomes env (.assign t k v) (.assign t k v') hs
  | shorthand : (Lower.shorthand t x).Gives p → Property.Becomes env (.shorthand t x) p []
  | spread : Expr.Becomes env e e' hs → Property.Becomes env (.spread t e) (.spread t e') hs

inductive Property.AllBecome : Env → List Property → List Property → List Handover → Prop
  | nil : Property.AllBecome env [] [] []
  | cons : Property.Becomes env p p' hs → Property.AllBecome env ps ps' hs' →
      Property.AllBecome env (p :: ps) (p' :: ps') (hs ++ hs')

inductive Param.AllBecome : Env → List Param → List Param → List Handover → Prop
  | nil : Param.AllBecome env [] [] []
  | cons : Expr.Becomes env e e' hs → Param.AllBecome env ps ps' hs' →
      Param.AllBecome env (.mk t n ty o r e :: ps) (.mk t n ty o r e' :: ps') (hs ++ hs')

inductive Block.Becomes : Env → Block → Block → List Handover → Prop
  | missing : Block.Becomes env .missing .missing []
  /-- Pins stand behind what they copy or at the top. -/
  | mk (pins : List Pin) : Stmt.AllBecome env ss ss' hs →
      Block.Becomes env (.mk t unique ss)
        (.mk t unique ((Pin.place pins ss').2.map Pin.stmt ++ (Pin.place pins ss').1)) hs

inductive Stmt.Becomes : Env → Stmt → Stmt → List Handover → Prop
  | missing : Stmt.Becomes env .missing .missing []
  | block : Block.Becomes env b b' hs → Stmt.Becomes env (.block b) (.block b') hs
  | expr : Expr.Becomes env e e' hs → Stmt.Becomes env (.expr t e) (.expr t e') hs
  | ret : Expr.Becomes env e e' hs → Stmt.Becomes env (.ret t e) (.ret t e') hs
  | throw : Expr.Becomes env e e' hs → Stmt.Becomes env (.throw t e) (.throw t e') hs
  | cond : Expr.Becomes env e e' hs → Stmt.Becomes env y y' hs' → Stmt.Becomes env n n' hs'' →
      Stmt.Becomes env (.cond t e y n) (.cond t e' y' n') (hs ++ hs' ++ hs'')
  | varDecl : Declarator.AllBecome env ds ds' hs →
      Stmt.Becomes env (.varDecl t x k ds) (.varDecl t x k ds') hs
  | funcDecl : Param.AllBecome (env.inside ps) ps ps' hs →
      Block.Becomes (env.inside ps) b b' hs' →
      Stmt.Becomes env (.funcDecl t x n ps r b) (.funcDecl t x n ps' r b') (hs ++ hs')
  | classDecl : Expr.Becomes env e e' hs → Member.AllBecome env ms ms' hs' →
      Stmt.Becomes env (.classDecl t x n e ms) (.classDecl t x n e' ms') (hs ++ hs')
  | importDecl : Stmt.Becomes env (.importDecl t sp d ns m) (.importDecl t sp d ns m) []
  | exportDecl : Stmt.Becomes env (.exportDecl t ns) (.exportDecl t ns) []

inductive Stmt.AllBecome : Env → List Stmt → List Stmt → List Handover → Prop
  | nil : Stmt.AllBecome env [] [] []
  | cons : Stmt.Becomes env s s' hs → Stmt.AllBecome env ss ss' hs' →
      Stmt.AllBecome env (s :: ss) (s' :: ss') (hs ++ hs')

inductive Declarator.AllBecome : Env → List Declarator → List Declarator → List Handover → Prop
  | nil : Declarator.AllBecome env [] [] []
  | cons : Expr.Becomes env e e' hs → Declarator.AllBecome env ds ds' hs' →
      Declarator.AllBecome env (.mk t n ty e :: ds) (.mk t n ty e' :: ds') (hs ++ hs')

inductive Member.Becomes : Env → Member → Member → List Handover → Prop
  | ctor : Param.AllBecome (env.inside ps) ps ps' hs → Block.Becomes (env.inside ps) b b' hs' →
      Member.Becomes env (.ctor t ps b) (.ctor t ps' b') (hs ++ hs')
  | method : Param.AllBecome (env.inside ps) ps ps' hs → Block.Becomes (env.inside ps) b b' hs' →
      Member.Becomes env (.method t x n ps b) (.method t x n ps' b') (hs ++ hs')
  | field : Expr.Becomes env e e' hs →
      Member.Becomes env (.field t x n ty e) (.field t x n ty e') hs

inductive Member.AllBecome : Env → List Member → List Member → List Handover → Prop
  | nil : Member.AllBecome env [] [] []
  | cons : Member.Becomes env m m' hs → Member.AllBecome env ms ms' hs' →
      Member.AllBecome env (m :: ms) (m' :: ms') (hs ++ hs')

/-- The statements of a Do body become a chain of effects; the flag tells whether none was met. -/
inductive Stmt.Chained :
    Env → Signature → Signature → List Stmt → List Stmt → Bool → List Handover → Prop
  | nil : Stmt.Chained env m fm [] [] true []
  | returned : s.isReturnBind = true → s.boundExpr = .call j g callee ts [e] →
      Expr.Becomes env e effect hs →
      Stmt.Chained env m fm [s] [.returning effect] false hs
  | bound (pins : List Pin) : s.isBind = true → s.boundExpr = .call j g callee ts [e] →
      Stmt.Chained env m fm ss rest settled hs → Expr.Becomes env e effect hs' →
      sig = (if settled then m else fm) →
      (Lower.extensionReference env sig j.token).Gives fn →
      (Lower.withTrace env sig j.token []).Gives extra →
      next = continuation s.boundName?.toList (pins.map Pin.stmt ++ rest) →
      Stmt.Chained env m fm (s :: ss)
        [.returning (extensionCallTyped fn sig.pipeable [] effect (next :: extra))] false
        (hs ++ hs')
  | kept (pins : List Pin) : (ss.isEmpty && s.isReturnBind || s.isBind) = false →
      Stmt.Chained env m fm ss rest settled hs → Stmt.Becomes env s s' hs' →
      Stmt.Chained env m fm (s :: ss) (s' :: pins.map Pin.stmt ++ rest) settled (hs ++ hs')

end

end ExtensionLowering
