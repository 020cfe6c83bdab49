import ExtensionLowering.Proofs.Lowering.Grouping
import ExtensionLowering.Proofs.Lowering.Handover
import ExtensionLowering.Proofs.Lowering.Route
/-!
# Laziness

Which lazy expressions are passed as functions. Every expression that a site hands over is passed
once. In the roles that delay, a lazy one is passed as a function of its lowered form and no other
one is; in the other roles none is. Hence laziness is honoured in a file just when no lazy
expression has one of the other roles.
-/
namespace ExtensionLowering

open List

theorem Expr.sizeOf_lt_thunk (e : Expr) : sizeOf e < sizeOf e.thunk := by
  simp only [Expr.thunk, Expr.lambda, Expr.arrow.sizeOf_spec]
  omega

theorem Expr.thunk_ne (e : Expr) : e.thunk ≠ e := fun h =>
  Nat.ne_of_gt e.sizeOf_lt_thunk (congrArg sizeOf h)

theorem thunkIf_inj {a b : Bool} {e : Expr} : thunkIf a e = thunkIf b e ↔ a = b := by
  cases a <;> cases b <;> simp [thunkIf, e.thunk_ne, e.thunk_ne.symm]

/-- Hand-overs of some offers, in their order, with those delayed that the roles delay. -/
structure Answers (offers : List Offer) (hs : List Handover) : Prop where
  offers : hs.map (·.toOffer) = offers
  passed : ∀ h ∈ hs, h.passed = thunkIf (h.role.delays && h.given.lazy) h.lowered

namespace Answers

variable {hs : List Handover} {os : List Offer}

theorem nil : Answers [] [] :=
  ⟨rfl, by simp⟩

theorem append {os' : List Offer} {hs' : List Handover} (h : Answers os hs) (h' : Answers os' hs') :
    Answers (os ++ os') (hs ++ hs') := by
  refine ⟨by rw [map_append, h.offers, h'.offers], fun x hx => ?_⟩
  obtain hx | hx := mem_append.1 hx
  · exact h.passed x hx
  · exact h'.passed x hx

theorem cons (h : Answers os hs) (role : Role) (e e' : Expr) :
    Answers (⟨role, e⟩ :: os) (⟨⟨role, e⟩, e', thunkIf (role.delays && e.lazy) e'⟩ :: hs) := by
  refine ⟨by rw [map_cons, h.offers], fun x hx => ?_⟩
  obtain rfl | hx := mem_cons.1 hx
  · rfl
  · exact h.passed x hx

/-- Laziness is honoured just where no lazy expression has a role that does not delay. -/
theorem honoured_iff (h : Answers os hs) :
    (∀ x ∈ hs, ¬ x.given.isSpread → x.Honoured) ↔
      ∀ o ∈ os, ¬ o.given.isSpread → o.given.lazy → o.role.delays := by
  rw [← h.offers]
  simp only [forall_mem_map]
  refine forall₂_congr fun x hx => imp_congr_right fun _ => ?_
  rw [Handover.Honoured, h.passed x hx, thunkIf_inj]
  cases x.role.delays <;> cases x.given.lazy <;> simp

end Answers

namespace Lower

variable {α β : Type} {os os' : List Offer} (env : Env)

/-- Whatever the state, a step makes some offers good and gives what it should with them. -/
def Hands (os : List Offer) (P : α → List Handover → Prop) (op : Lower α) : Prop :=
  ∀ u, ∃ hs, P (op.run u).1 hs ∧ Answers os hs

namespace Hands

variable {P : α → List Handover → Prop} {Q : β → List Handover → Prop} {x : Lower α}
  {f : α → Lower β}

theorem still (h : ∀ u, P (x.run u).1 []) : Hands [] P x :=
  fun u => ⟨[], h u, .nil⟩

theorem bind (hx : Hands os P x)
    (hf : ∀ a hs, P a hs → Hands os' (fun b hs' => Q b (hs ++ hs')) (f a)) :
    Hands (os ++ os') Q (x >>= f) := by
  intro u
  obtain ⟨hs, hP, ha⟩ := hx u
  obtain ⟨hs', hQ, ha'⟩ := hf _ hs hP (x.run u).2
  exact ⟨hs ++ hs', hQ, ha.append ha'⟩

/-- What follows hands nothing over. -/
theorem finish (hx : Hands os P x) (hf : ∀ a hs, P a hs → ∀ u, Q ((f a).run u).1 hs) :
    Hands os Q (x >>= f) := by
  intro u
  obtain ⟨hs, hP, ha⟩ := hx u
  exact ⟨hs, hf _ hs hP _, ha⟩

/-- What comes first hands nothing over. -/
theorem skip (hf : ∀ a, x.Gives a → Hands os Q (f a)) : Hands os Q (x >>= f) :=
  fun u => hf _ ⟨u, rfl⟩ (x.run u).2

theorem mono (hx : Hands os P x) {P' : α → List Handover → Prop}
    (h : ∀ a hs, P a hs → P' a hs) : Hands os P' x := by
  intro u
  obtain ⟨hs, hP, ha⟩ := hx u
  exact ⟨hs, h _ hs hP, ha⟩

/-- A lowered expression is handed over as its role says. -/
theorem handed {env : Env} {e : Expr} {op : Lower Expr} (h : Hands os (Expr.Becomes env e) op)
    (role : Role) :
    Hands (⟨role, e⟩ :: os)
      (fun e' hs => Expr.Handed env role e (thunkIf (role.delays && e.lazy) e') hs) op := by
  intro u
  obtain ⟨hs, he, ha⟩ := h u
  exact ⟨_, .mk (role.delays && e.lazy) he, ha.cons role e _⟩

end Hands

/-! ## What is added to the arguments of a call -/

theorem withTrace_run (s : Signature) (token : Token) (args : List Expr)
    (u : Lowering) {P : List Expr → Prop}
    (h : ∀ extra, (withTrace env s token []).Gives extra → P (args ++ extra)) :
    P ((withTrace env s token args).run u).1 := by
  have hrun : ((withTrace env s token args).run u).1 =
      args ++ ((withTrace env s token []).run u).1 := by
    unfold withTrace
    split
    · rfl
    · exact (append_nil args).symm
  exact hrun ▸ h _ ⟨u, rfl⟩

theorem complete_run (token : Token) (facts : CallFacts) (args lowered : List Expr) (u : Lowering) :
    ∃ extra, ((complete env token facts args lowered).run u).1 = lowered ++ extra ∧
      (complete env token facts args []).Gives extra := by
  refine ⟨((complete env token facts args []).run u).1, ?_, u, rfl⟩
  unfold complete
  split
  · exact (append_nil lowered).symm
  · split
    · exact (append_nil lowered).symm
    · rfl

theorem callExtension_run (s : Signature) (token : Token) (ts : List TypeRef)
    (receiver : Expr) (args : List Expr) (u : Lowering) {P : Expr → Prop}
    (h : ∀ fn extra, (extensionReference env s token).Gives fn →
      (withTrace env s token []).Gives extra →
      P (extensionCallTyped fn s.pipeable ts receiver (args ++ extra))) :
    P ((callExtension env s token ts receiver args).run u).1 :=
  withTrace_run env s token args ((extensionReference env s token).run u).2
    (P := fun as => P (extensionCallTyped _ s.pipeable ts receiver as))
    fun extra hextra => h _ extra ⟨u, rfl⟩ hextra

end Lower

/-! ## Calls -/

namespace Lower

variable {env : Env}

theorem complete_keeps {i : Info} {facts : CallFacts} {callee : Expr} {ts : List TypeRef}
    {args as : List Expr} {hs : List Handover}
    (hroute : callRoute env.compilation facts callee args ≠ .unresolved)
    (ha : Expr.AllHanded env .argument args as hs) (u : Lowering) :
    Expr.KeepsArgs env (.call i facts callee ts args)
      ((complete env i.token facts args as).run u).1 hs := by
  obtain ⟨extra, hrun, hextra⟩ := complete_run env i.token facts args as u
  rw [hrun]
  exact .filled hroute ha hextra

/-- Applies one stage to a value. -/
def stage (env : Env) (acc e : Expr) : Lower Expr := do
  match e.dataFirst? with
  | some target =>
    let args ← callArguments env e
    dataFirstCall env target e.token acc args
  | none => return (← expr env e).apply [acc]

theorem stages_cons (env : Env) (acc e : Expr) (es : List Expr) :
    stages env acc (e :: es) = stage env acc e >>= fun next => stages env next es := by
  rw [stages, stage]
  cases e.dataFirst? <;> simp

/-- The arguments of a curried call are lowered as a stage hands them over. -/
def HandsArguments (env : Env) (e : Expr) : Prop :=
  Hands (e.stageArgumentOffers env.compilation)
    (fun args' hs => ∀ i facts callee ts args, e = .call i facts callee ts args →
      Expr.AllHanded env .stageArgument args args' hs) (callArguments env e)

theorem stage_hands {e : Expr} (acc : Expr)
    (he : Hands (e.offers env.compilation) (Expr.Becomes env e) (expr env e))
    (hargs : HandsArguments env e) :
    Hands (if e.dataFirst?.isSome then e.stageArgumentOffers env.compilation
      else e.offers env.compilation) (Expr.Staged env acc e) (stage env acc e) := by
  unfold stage
  cases hfirst : e.dataFirst? with
  | none => exact he.finish fun _ _ h _ => .applied hfirst h
  | some target =>
    cases e with
    | call i facts callee ts args =>
      exact hargs.finish fun _ _ h u => .fused hfirst (h i facts callee ts args rfl) ⟨u, rfl⟩
    | _ => cases hfirst

theorem seed_hands {os : List Offer} {e : Expr} {op : Lower Expr} (stages : List Expr)
    (he : Hands os (Expr.Becomes env e) op) :
    Hands (seedOffer e stages ++ os) (Expr.Seeded env e stages) op := by
  unfold seedOffer
  cases hfused : startsFused stages with
  | true => exact (he.handed .seed).mono fun _ _ h => .fused hfused h
  | false => exact he.mono fun _ _ h => .applied hfused h

/-! ## The walk -/

mutual

theorem expr_hands (env : Env) :
    ∀ e : Expr, Hands (e.offers env.compilation) (Expr.Becomes env e) (expr env e)
  | .missing | .number .. | .string .. | .bool .. | .this _ | .super _ =>
    .still fun _ => .leaf rfl
  | .ident _ => .still fun u => .name ⟨u, rfl⟩
  | .prop i facts o n q => by
    have ho := expr_hands env o
    rw [Expr.offers, Lower.expr]
    by_cases hid : facts.intrinsic = some .identity
    · rw [if_neg (by simp [hid]), if_pos hid]
      exact ho.mono fun _ _ h => .identityAccess hid h
    rw [if_neg hid]
    cases hsig : facts.signature with
    | none =>
      rw [if_neg (by simp)]
      exact ho.finish fun _ _ h _ => .access hid (by simp [hsig]) h
    | some s =>
      dsimp only
      cases hkind : s.kind with
      | static =>
        rw [if_pos (by simp [hid, hkind])]
        exact .still fun u => .static hid hsig hkind ⟨u, rfl⟩
      | getter =>
        rw [if_neg (by simp [hkind])]
        refine ho.finish fun o' _ h u => ?_
        exact withTrace_run env s i.token [simplifyObject o'] _
          (P := fun as => Expr.Becomes env _ (Expr.apply _ as) _)
          fun extra hextra => .getter hid hsig hkind h ⟨u, rfl⟩ hextra
      | _ =>
        rw [if_neg (by simp [hkind])]
        refine ho.finish fun _ _ h _ => .access hid (fun s' hs' => ?_) h
        cases hsig.symm.trans hs'
        simp [hkind]
  | .elem i facts o x => by
    rw [Expr.offers, Lower.expr]
    refine (expr_hands env o).bind fun o' _ ho => (expr_hands env x).finish fun x' _ hx u => ?_
    cases hsig : facts.signature with
    | none => exact .elem (by simp [hsig]) ho hx
    | some s =>
      by_cases hkind : s.kind = .indexer
      · dsimp only
        rw [if_pos hkind]
        exact .indexer hsig hkind ho hx ⟨u, rfl⟩
      · dsimp only
        rw [if_neg hkind]
        exact .elem (fun s' hs' => by cases hsig.symm.trans hs'; exact hkind) ho hx
  | .call i facts callee ts args => by
    have hfits := callRoute_fits env.compilation facts callee args
    have hcallee := expr_hands env callee
    have hargs := arguments_hands env args
    rw [Expr.offers, Lower.expr]
    cases hroute : callRoute env.compilation facts callee args with
    | plain =>
      exact hcallee.bind fun _ _ hc => hargs.finish fun _ _ ha u =>
        .call hroute hc (complete_keeps (by simp [hroute]) ha u)
    | pipe =>
      rw [hroute] at hfits
      refine (pipe_hands env args hfits).mono fun out hs h => ?_
      obtain ⟨e, es, e', hs₁, hs₂, rfl, rfl, hseed, hpiped⟩ := h
      exact .pipe hroute hseed hpiped
    | identity =>
      rw [hroute] at hfits
      refine (only_hands env args hfits).mono fun out hs h => ?_
      obtain ⟨e, rfl, he⟩ := h
      exact .identity hroute he
    | remove => exact .still fun _ => .remove hroute
    | derive => exact .still fun u => .derive hroute ⟨u, rfl⟩
    | fuse target =>
      rw [hroute] at hfits
      cases hkept : callee.isKept env.compilation with
      | true =>
        refine (kept_hands env callee hkept).bind fun inner _ hinner => ?_
        refine hargs.finish fun as _ ha u => ?_
        obtain ⟨j, g, dead, ts', args', rfl, hkeep⟩ := hinner
        obtain ⟨arg, rfl⟩ := hfits
        obtain - | ⟨harg, ⟨⟩⟩ := ha
        rw [append_nil]
        exact .fused hroute hkept hkeep harg ⟨u, rfl⟩
      | false =>
        refine hcallee.bind fun inner _ hinner => hargs.finish fun as _ ha u => ?_
        have hcall : Expr.Becomes env (.call i facts callee ts args) _ _ :=
          .curried hroute hkept hinner (complete_keeps (by simp [hroute]) ha u)
        split <;> exact hcall
    | chain map flatMap =>
      rw [hroute] at hfits
      refine (doArgument_hands env map flatMap args hfits).mono fun out _ h => ?_
      obtain ⟨j, ps, t, unique, ss, r, pins, stmts, settled, rfl, rfl, hchain⟩ := h
      exact .chain pins hroute hchain
    | extension s =>
      exact .skip fun _ _ => .skip fun _ hfn => .skip fun _ _ => hargs.finish fun _ _ ha u =>
        .extension hroute hfn (complete_keeps (by simp [hroute]) ha u)
    | unresolved => exact .skip fun _ _ => .still fun _ => .unresolved hroute
    | method s =>
      rw [hroute] at hfits
      refine ((accessed_hands env callee).handed .receiver).bind fun o' _ ho => ?_
      refine (exprs_handed env .fluentArgument rfl args).finish fun as _ ha u => ?_
      obtain ⟨j, g, o, n, q, rfl⟩ := hfits
      exact callExtension_run env s i.token ts _ as u (P := (Expr.Becomes env _ · _))
        fun fn extra hfn hextra => .method hroute ho ha hfn hextra
    | function s =>
      rw [hroute] at hfits
      refine (fluent_hands env args hfits).finish fun out _ h u => ?_
      obtain ⟨e, es, e', es', _, _, rfl, rfl, rfl, he, hes⟩ := h
      exact callExtension_run env s i.token ts _ es' u (P := (Expr.Becomes env _ · _))
        fun fn extra hfn hextra => .function hroute he hes hfn hextra
    | methodPipe =>
      rw [hroute] at hfits
      have hseed := seed_hands args (accessed_hands env callee)
      refine hseed.bind fun o' _ ho => (stages_hands env args o').mono fun out _ h => ?_
      obtain ⟨j, g, o, n, q, rfl⟩ := hfits
      exact .methodPipe hroute ho h
  | .new i callee ts args => by
    rw [Expr.offers, Lower.expr]
    exact (expr_hands env callee).bind fun _ _ hc =>
      (exprs_hands env args).finish fun _ _ ha _ => .new hc ha
  | .binary i facts l op r => by
    have hl := expr_hands env l
    have hr := expr_hands env r
    rw [Expr.offers, Lower.expr]
    by_cases hpipe : facts.intrinsic = some .pipe
    · rw [if_pos hpipe, if_pos hpipe]
      refine (seed_hands [r] hl).bind fun l' _ hl' => ?_
      have hstage := stage_hands l' hr (callArguments_hands env r)
      refine hstage.mono fun _ hs h => .pipeOperator hpipe hl' ?_
      rw [← append_nil hs]
      exact .cons h .nil
    rw [if_neg hpipe, if_neg hpipe]
    cases hsig : facts.signature with
    | none => exact hl.bind fun _ _ hl' => hr.finish fun _ _ hr' _ =>
        .binary hpipe (by simp [hsig]) hl' hr'
    | some s =>
      dsimp only
      by_cases hkind : s.kind = .operator
      · rw [if_pos hkind, if_pos hkind]
        cases hdecl : env.compilation.operatorDeclaration? s.decl with
        | none => exact .skip fun _ _ => .still fun _ =>
            .undeclaredOperator hpipe hsig hkind hdecl
        | some d =>
          refine (hl.handed .operand).bind fun l' _ hl' => ?_
          refine (hr.handed .operand).finish fun r' _ hr' u => ?_
          exact withTrace_run env s i.token [thunkIf r.lazy r'] _
            (P := fun as => Expr.Becomes env _ (extensionCall _ s.pipeable _ as) _)
            fun extra hextra => .operator hpipe hsig hkind hdecl hl' hr' ⟨u, rfl⟩ hextra
      · rw [if_neg hkind, if_neg hkind]
        exact hl.bind fun _ _ hl' => hr.finish fun _ _ hr' _ => .binary hpipe
          (fun s' hs' => by cases hsig.symm.trans hs'; exact hkind) hl' hr'
  | .unary _ _ e | .paren _ e | .void _ e | .spread _ e => by
    rw [Expr.offers, Lower.expr]
    refine (expr_hands env e).finish fun _ _ h _ => ?_
    constructor
    exact h
  | .cond i t y n => by
    rw [Expr.offers, Lower.expr, append_assoc]
    refine (expr_hands env t).bind fun _ _ ht => (expr_hands env y).bind fun _ _ hy => ?_
    refine (expr_hands env n).finish fun _ _ hn _ => ?_
    rw [← append_assoc]
    exact .cond ht hy hn
  | .array i es => by
    rw [Expr.offers, Lower.expr]
    exact (exprs_hands env es).finish fun _ _ h _ => .array h
  | .object i ps => by
    rw [Expr.offers, Lower.expr]
    exact (properties_hands env ps).finish fun _ _ h _ => .object h
  | .arrow i ps b e => by
    have hps := params_hands (env.inside ps) ps
    have hb := block_hands (env.inside ps) b
    have he := expr_hands (env.inside ps) e
    rw [Expr.offers, Lower.expr]
    cases b with
    | missing =>
      simp only [Block.offers, Block.isMissing, append_nil, if_true, Lower.block, pure_bind]
      exact hps.bind fun _ _ hps' => he.finish fun _ _ he' _ => .concise hps' he'
    | mk t unique ss =>
      simp only [Block.isMissing, Bool.false_eq_true, if_false, append_nil]
      exact hps.bind fun _ _ hps' => hb.finish fun _ _ hb' _ => .arrow hps' hb' rfl
  | .func i self ps b => by
    rw [Expr.offers, Lower.expr]
    exact (params_hands (env.inside ps) ps).bind fun _ _ hps =>
      (block_hands (env.inside ps) b).finish fun _ _ hb _ => .func hps hb

theorem exprs_hands (env : Env) :
    ∀ es : List Expr,
      Hands (Expr.allOffers env.compilation es) (Expr.AllBecome env es) (exprs env es)
  | [] => .still fun _ => .nil
  | e :: es => by
    rw [Expr.allOffers, exprs]
    exact (expr_hands env e).bind fun _ _ he =>
      (exprs_hands env es).finish fun _ _ hes _ => .cons he hes

/-- A role that does not delay is met by the lowered expressions themselves. -/
theorem exprs_handed (env : Env) (role : Role) (hrole : role.delays = false) :
    ∀ es : List Expr,
      Hands (Expr.handed env.compilation role es) (Expr.AllHanded env role es) (exprs env es)
  | [] => .still fun _ => .nil
  | e :: es => by
    rw [Expr.handed, exprs]
    refine ((expr_hands env e).handed role).bind fun _ _ he => ?_
    rw [hrole] at he
    exact (exprs_handed env role hrole es).finish fun _ _ hes _ => .cons he hes

theorem arguments_hands (env : Env) :
    ∀ es : List Expr,
      Hands (Expr.handed env.compilation .argument es) (Expr.AllHanded env .argument es)
        (arguments env es)
  | [] => .still fun _ => .nil
  | e :: es => by
    rw [Expr.handed, arguments]
    exact ((expr_hands env e).handed .argument).bind fun _ _ he =>
      (arguments_hands env es).finish fun _ _ hes _ => .cons he hes

theorem only_hands (env : Env) :
    ∀ es : List Expr, (∃ e, es = [e]) →
      Hands (Expr.allOffers env.compilation es)
        (fun e' hs => ∃ e, es = [e] ∧ Expr.Becomes env e e' hs) (only env es)
  | [], h | _ :: _ :: _, h => by simp at h
  | [e], _ => by
    rw [Expr.allOffers, Expr.allOffers, append_nil, only]
    exact (expr_hands env e).mono fun _ _ h => ⟨e, rfl, h⟩

theorem accessed_hands (env : Env) :
    ∀ e : Expr,
      Hands (e.accessedOffers env.compilation) (Expr.Becomes env e.accessed) (objectOf env e) := by
  intro e
  cases e with
  | prop _ _ o _ _ => exact expr_hands env o
  | _ => exact .still fun _ => .leaf rfl

theorem pipe_hands (env : Env) :
    ∀ es : List Expr, (∃ e rest, es = e :: rest) →
      Hands (Expr.pipeOffers env.compilation es)
        (fun out hs => ∃ e rest e' hs₁ hs₂, es = e :: rest ∧ hs = hs₁ ++ hs₂ ∧
          Expr.Seeded env e rest e' hs₁ ∧ Expr.Piped env e' rest out hs₂) (stagesOf env es)
  | [], h => by simp at h
  | e :: es, _ => by
    rw [Expr.pipeOffers, stagesOf]
    exact (seed_hands es (expr_hands env e)).bind fun e' hs₁ he =>
      (stages_hands env es e').mono fun _ hs₂ hes => ⟨e, es, e', hs₁, hs₂, rfl, rfl, he, hes⟩

theorem stages_hands (env : Env) :
    ∀ (es : List Expr) (acc : Expr),
      Hands (Expr.stageOffers env.compilation es) (Expr.Piped env acc es) (stages env acc es)
  | [], _ => .still fun _ => .nil
  | e :: es, acc => by
    rw [Expr.stageOffers, stages_cons]
    exact (stage_hands acc (expr_hands env e) (callArguments_hands env e)).bind fun acc' _ he =>
      (stages_hands env es acc').mono fun _ _ hes => .cons he hes

theorem callArguments_hands (env : Env) : ∀ e : Expr, HandsArguments env e := by
  intro e
  cases e with
  | call _ _ _ _ as =>
    refine (exprs_handed env .stageArgument rfl as).mono fun _ _ h => ?_
    rintro _ _ _ _ _ ⟨⟩
    exact h
  | _ => exact .still fun _ _ _ _ _ _ h => nomatch h

/-- The arguments of a fluent call in call form: the receiver may be delayed, the others not. -/
theorem fluent_hands (env : Env) :
    ∀ es : List Expr, (∃ e rest, es = e :: rest) →
      Hands (Expr.fluentOffers env.compilation es)
        (fun out hs => ∃ e rest e' rest' hs₁ hs₂, es = e :: rest ∧ out = e' :: rest' ∧
          hs = hs₁ ++ hs₂ ∧ Expr.Handed env .receiver e (thunkIf e.lazy e') hs₁ ∧
          Expr.AllHanded env .fluentArgument rest rest' hs₂) (exprs env es)
  | [], h => by simp at h
  | e :: es, _ => by
    rw [Expr.fluentOffers, exprs]
    exact ((expr_hands env e).handed .receiver).bind fun e' hs₁ he =>
      (exprs_handed env .fluentArgument rfl es).finish fun es' hs₂ hes _ =>
        ⟨e, es, e', es', hs₁, hs₂, rfl, rfl, rfl, he, hes⟩

theorem kept_hands (env : Env) :
    ∀ e : Expr, e.isKept env.compilation = true →
      Hands (e.keptOffers env.compilation)
        (fun out hs => ∃ i facts callee ts args, out = .call i facts callee ts args ∧
          Expr.KeepsArgs env e args hs) (expr env e) := by
  intro e h
  cases e with
  | call i facts callee ts args =>
    have hargs := arguments_hands env args
    rw [Expr.isKept] at h
    rw [Expr.keptOffers, Lower.expr]
    cases hroute : callRoute env.compilation facts callee args with
    | plain =>
      rw [if_neg (by simp)]
      exact .skip fun c _ => hargs.finish fun _ _ ha u =>
        ⟨i, facts, c, ts, _, rfl, complete_keeps (by simp [hroute]) ha u⟩
    | extension s =>
      rw [if_neg (by simp)]
      exact .skip fun _ _ => .skip fun fn _ => .skip fun _ _ => hargs.finish fun _ _ ha u =>
        ⟨i, facts, fn, ts, _, rfl, complete_keeps (by simp [hroute]) ha u⟩
    | unresolved =>
      rw [if_pos rfl]
      exact .skip fun _ _ => .still fun _ => ⟨i, facts, callee, ts, args, rfl, .unresolved hroute⟩
    | fuse target =>
      rw [if_neg (by simp)]
      rw [hroute] at h
      refine .skip fun inner _ => hargs.finish fun as _ ha u => ?_
      have hkeep : Expr.KeepsArgs env (.call i facts callee ts args) _ _ :=
        complete_keeps (by simp [hroute]) ha u
      have hnot : callee.isKept env.compilation = false := by simpa using h
      split
      · rw [hnot]
        exact ⟨i, facts, _, ts, _, rfl, hkeep⟩
      · exact ⟨i, facts, _, ts, _, rfl, hkeep⟩
    | _ =>
      rw [hroute] at h
      cases h
  | _ => cases h

theorem properties_hands (env : Env) :
    ∀ ps : List Property,
      Hands (Property.allOffers env.compilation ps) (Property.AllBecome env ps) (properties env ps)
  | [] => .still fun _ => .nil
  | p :: ps => by
    rw [Property.allOffers, properties]
    exact (property_hands env p).bind fun _ _ hp =>
      (properties_hands env ps).finish fun _ _ hps _ => .cons hp hps

theorem property_hands (env : Env) :
    ∀ p : Property,
      Hands (p.offers env.compilation) (Property.Becomes env p) (property env p)
  | .assign t k v => by
    rw [Property.offers, property]
    dsimp only
    by_cases hk : k.isLiteralKey = true
    · rw [if_pos hk, if_pos hk, nil_append, pure_bind]
      exact (expr_hands env v).finish fun _ _ hv _ => .literal hk hv
    · rw [if_neg hk, if_neg hk]
      exact (expr_hands env k).bind fun _ _ hk' =>
        (expr_hands env v).finish fun _ _ hv _ => .assign (by simpa using hk) hk' hv
  | .shorthand _ _ => .still fun u => .shorthand ⟨u, rfl⟩
  | .spread t e => by
    rw [Property.offers, property]
    exact (expr_hands env e).finish fun _ _ h _ => .spread h

theorem params_hands (env : Env) :
    ∀ ps : List Param,
      Hands (Param.allOffers env.compilation ps) (Param.AllBecome env ps) (params env ps)
  | [] => .still fun _ => .nil
  | .mk _ _ _ _ _ e :: ps => by
    rw [Param.allOffers, Param.offers, params, param, bind_assoc]
    simp only [pure_bind]
    exact (expr_hands env e).bind fun _ _ he =>
      (params_hands env ps).finish fun _ _ hps _ => .cons he hps

theorem block_hands (env : Env) :
    ∀ b : Block, Hands (b.offers env.compilation) (Block.Becomes env b) (block env b)
  | .missing => .still fun _ => .missing
  | .mk t unique ss => by
    rw [Block.offers, block_mk]
    refine .skip fun pins _ => (stmts_hands env ss).finish fun ss' _ h u => ?_
    have hblock : Block.Becomes env (.mk t unique ss) _ _ := .mk pins h
    rw [← insertPins_run pins ss' u] at hblock
    exact hblock

theorem stmts_hands (env : Env) :
    ∀ ss : List Stmt,
      Hands (Stmt.allOffers env.compilation ss) (Stmt.AllBecome env ss) (stmts env ss)
  | [] => .still fun _ => .nil
  | s :: ss => by
    rw [Stmt.allOffers, stmts]
    exact (stmt_hands env s).bind fun _ _ hs =>
      (stmts_hands env ss).finish fun _ _ hss _ => .cons hs hss

theorem stmt_hands (env : Env) :
    ∀ s : Stmt, Hands (s.offers env.compilation) (Stmt.Becomes env s) (stmt env s)
  | .missing => .still fun _ => .missing
  | .block b => by
    rw [Stmt.offers, stmt]
    exact (block_hands env b).finish fun _ _ h _ => .block h
  | .expr _ e | .ret _ e | .throw _ e => by
    rw [Stmt.offers, stmt]
    refine (expr_hands env e).finish fun _ _ h _ => ?_
    constructor
    exact h
  | .cond t e y n => by
    rw [Stmt.offers, stmt, append_assoc]
    refine (expr_hands env e).bind fun _ _ he => (stmt_hands env y).bind fun _ _ hy => ?_
    refine (stmt_hands env n).finish fun _ _ hn _ => ?_
    rw [← append_assoc]
    exact .cond he hy hn
  | .varDecl t x k ds => by
    rw [Stmt.offers, stmt]
    exact (declarators_hands env ds).finish fun _ _ h _ => .varDecl h
  | .funcDecl t x n ps r b => by
    rw [Stmt.offers, stmt]
    exact (params_hands (env.inside ps) ps).bind fun _ _ hps =>
      (block_hands (env.inside ps) b).finish fun _ _ hb _ => .funcDecl hps hb
  | .classDecl t x n e ms => by
    rw [Stmt.offers, stmt]
    exact (expr_hands env e).bind fun _ _ he =>
      (members_hands env ms).finish fun _ _ hms _ => .classDecl he hms
  | .importDecl .. => .still fun _ => .importDecl
  | .exportDecl .. => .still fun _ => .exportDecl

theorem declarators_hands (env : Env) :
    ∀ ds : List Declarator,
      Hands (Declarator.allOffers env.compilation ds) (Declarator.AllBecome env ds)
        (declarators env ds)
  | [] => .still fun _ => .nil
  | .mk _ _ _ e :: ds => by
    rw [Declarator.allOffers, Declarator.offers, declarators, declarator, bind_assoc]
    simp only [pure_bind]
    exact (expr_hands env e).bind fun _ _ he =>
      (declarators_hands env ds).finish fun _ _ hds _ => .cons he hds

theorem members_hands (env : Env) :
    ∀ ms : List Member,
      Hands (Member.allOffers env.compilation ms) (Member.AllBecome env ms) (members env ms)
  | [] => .still fun _ => .nil
  | m :: ms => by
    rw [Member.allOffers, members]
    exact (member_hands env m).bind fun _ _ hm =>
      (members_hands env ms).finish fun _ _ hms _ => .cons hm hms

theorem member_hands (env : Env) :
    ∀ m : Member, Hands (m.offers env.compilation) (Member.Becomes env m) (member env m)
  | .ctor _ ps b | .method _ _ _ ps b => by
    rw [Member.offers, member]
    refine (params_hands (env.inside ps) ps).bind fun _ _ hps =>
      (block_hands (env.inside ps) b).finish fun _ _ hb _ => ?_
    constructor
    · exact hps
    · exact hb
  | .field t x n ty e => by
    rw [Member.offers, member]
    exact (expr_hands env e).finish fun _ _ h _ => .field h

theorem doArgument_hands (env : Env) (map flatMap : Signature) :
    ∀ es : List Expr, (∃ i ps t unique ss r, es = [.arrow i ps (.mk t unique ss) r]) →
      Hands (Expr.doOffers env.compilation es)
        (fun out hs => ∃ i ps t unique ss r pins stmts settled,
          es = [.arrow i ps (.mk t unique ss) r] ∧
          out = bodyValue (List.map Pin.stmt pins ++ stmts) ∧
          Stmt.Chained env map flatMap ss stmts settled hs) (doArgument env map flatMap es)
  | _, ⟨i, ps, t, unique, ss, r, rfl⟩ => by
    rw [Expr.doOffers, Block.doOffers, doArgument, doArrow, doBlock_mk]
    refine .skip fun pins _ => ?_
    have hchain := chain_hands env map flatMap ss pins
    dsimp only
    split
    · exact .skip fun _ _ => hchain.finish fun ⟨body, left, settled⟩ _ h _ =>
        ⟨i, ps, t, unique, ss, r, left, body, settled, rfl, rfl, h⟩
    · exact hchain.finish fun ⟨body, left, settled⟩ _ h _ =>
        ⟨i, ps, t, unique, ss, r, left, body, settled, rfl, rfl, h⟩

theorem chain_hands (env : Env) (map flatMap : Signature) :
    ∀ (ss : List Stmt) (pins : List Pin),
      Hands (Stmt.chainOffers env.compilation ss)
        (fun out hs => Stmt.Chained env map flatMap ss out.1 out.2.2 hs)
        (chain env map flatMap pins ss)
  | [], _ => .still fun _ => .nil
  | s :: ss, pins => by
    have hbound := bound_hands env s
    have hstmt := stmt_hands env s
    have hss := chain_hands env map flatMap ss
    rw [Stmt.chainOffers, chain]
    cases hlast : ss.isEmpty && s.isReturnBind with
    | true =>
      -- A return declares no constant, so no pin stands behind it.
      simp only [Bool.and_eq_true, List.isEmpty_iff] at hlast
      obtain ⟨rfl, hret⟩ := hlast
      rw [Pin.after_isReturnBind pins hret, Stmt.chainOffers, if_pos (by simp)]
      dsimp only
      rw [chain, pure_bind]
      refine (hbound (by simp [hret])).finish fun effect _ h _ => ?_
      obtain ⟨j, g, callee, ts, e, heq, he⟩ := h
      exact .returned hret heq he
    | false =>
      obtain ⟨now, later⟩ := Pin.after pins s
      refine (hss later).bind fun ⟨rest, left, settled⟩ _ hrest => ?_
      simp only [Bool.false_eq_true, if_false, Bool.false_or]
      by_cases hbind : s.isBind = true
      · rw [if_pos hbind, if_pos hbind]
        refine (hbound (by simp [hbind])).finish fun effect _ h u => ?_
        obtain ⟨j, g, callee, ts, e, heq, he⟩ := h
        have htoken : s.boundExpr.token = j.token := by rw [heq, Expr.token]
        refine callExtension_run env (if settled then map else flatMap) s.boundExpr.token [] effect
          _ u (P := (Stmt.Chained env map flatMap (s :: ss) [.returning ·] false _))
          fun fn extra hfn hextra => ?_
        rw [htoken] at hfn hextra
        exact .bound now hbind heq hrest he rfl hfn hextra rfl
      · rw [if_neg hbind, if_neg hbind]
        exact hstmt.finish fun _ _ hs _ => .kept now (by simp [hlast, hbind]) hrest hs

theorem bound_hands (env : Env) :
    ∀ s : Stmt, (s.isBind || s.isReturnBind) = true →
      Hands (s.boundOffers env.compilation)
        (fun effect hs => ∃ j g callee ts e, s.boundExpr = .call j g callee ts [e] ∧
          Expr.Becomes env e effect hs) (bound env s)
  | .varDecl _ _ _ [.mk _ _ _ init], h =>
    boundArgument_hands env init (by simpa [Stmt.isBind, Stmt.isReturnBind] using h)
  | .expr _ e, h | .ret _ e, h =>
    boundArgument_hands env e (by simpa [Stmt.isBind, Stmt.isReturnBind] using h)
  | .varDecl _ _ _ [], h | .varDecl _ _ _ (_ :: _ :: _), h | .missing, h | .block _, h
  | .throw .., h | .cond .., h | .funcDecl .., h | .classDecl .., h | .importDecl .., h
  | .exportDecl .., h => by simp [Stmt.isBind, Stmt.isReturnBind] at h

theorem boundArgument_hands (env : Env) :
    ∀ e : Expr, e.isBind = true →
      Hands (e.effectOffers env.compilation)
        (fun effect hs => ∃ j g callee ts a, e = .call j g callee ts [a] ∧
          Expr.Becomes env a effect hs) (boundArgument env e) := by
  intro e h
  cases e with
  | call j g callee ts args =>
    have hargs : ∃ a, args = [a] := by
      unfold Expr.isBind at h
      split at h <;> simp_all
    refine (only_hands env args hargs).mono fun _ _ h => ?_
    obtain ⟨a, rfl, ha⟩ := h
    exact ⟨j, g, callee, ts, a, rfl, ha⟩
  | _ => cases h

end

end Lower

namespace Session

/-- The walk of a file makes its offers good, and the output is put together from what it gives:
each statement has its group, and the last pass finishes the statements. Laziness is honoured just
when each lazy expression has a role that delays; spreads are left out. -/
theorem laziness_honoured_iff (session : Session) (f : File) :
    ∃ pins lowered hs,
      (session.walk f).1 = Pin.place pins lowered ∧
      (∀ out, (session.lower f).1 = .lowered out → ∃ groups : List (List Stmt),
        out.stmts = preamble (session.env f) (session.walk f).2 ++
          (Pin.place pins lowered).2.map (fun p => session.copied f p p.ident) ++
          groups.flatten.map (session.finish f) ∧
        List.Forall₂ (fun s group => group ≠ [] ∧ Among Inserted
          (((session.aliases f).split s).map
            ((session.aliases f).underAlias)) group) lowered groups) ∧
      (∀ s, session.Finishes f s (session.finish f s)) ∧
      Stmt.AllBecome (session.env f) f.stmts lowered hs ∧
      Answers (Stmt.allOffers session.compilation f.stmts) hs ∧
      ((∀ h ∈ hs, ¬ h.given.isSpread → h.Honoured) ↔
        ∀ o ∈ Stmt.allOffers session.compilation f.stmts,
          ¬ o.given.isSpread → o.given.lazy → o.role.delays) := by
  obtain ⟨pins, u, hwalk, -⟩ := session.walk_eq f
  obtain ⟨hs, hbecome, hanswers⟩ := Lower.stmts_hands (session.env f) f.stmts u
  exact ⟨pins, _, hs, hwalk, fun out hout => session.lower_groups f hout hwalk,
    session.finish_finishes f, hbecome, hanswers, hanswers.honoured_iff⟩

/-- `compute()`, to be passed unevaluated. -/
def delayed : Expr :=
  .call { lazy := true } {} (.ofName "compute") [] []

/-- `x.orElse(compute())` -/
def lazyAlternative : File :=
  { stmts := [.expr {} (.call {} { signature := some { exportName := "orElse" }, fluent := true }
      ((Expr.ofName "x").member "orElse") [] [delayed])] }

/-- A lazy argument of a fluent call is passed as it is. -/
theorem fluent_argument_undelayed :
    ⟨.fluentArgument, delayed⟩ ∈ Stmt.allOffers {} lazyAlternative.stmts ∧
      delayed.lazy = true ∧ delayed.isSpread = false ∧ delayed.thunk ≠ delayed ∧
      (({ compilation := {} } : Session).lower lazyAlternative).1 =
        .lowered { stmts := [.expr {} ((Expr.ofName "orElse").apply [.ofName "x", delayed])] } := by
  refine ⟨?_, rfl, rfl, delayed.thunk_ne, by rfl⟩
  exact List.mem_cons_of_mem _ (List.mem_cons_self ..)

end Session

end ExtensionLowering
