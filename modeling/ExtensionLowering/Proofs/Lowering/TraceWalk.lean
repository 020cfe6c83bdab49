import ExtensionLowering.Proofs.Lowering.Grouping
import ExtensionLowering.Proofs.Lowering.Route
import ExtensionLowering.Proofs.Lowering.TraceNote
/-!
# Trace arguments

Lowering inserts a trace for each call that takes one: a reference to the trace parameter of the
nearest function that has one, or else the variable of the file and the place of the call. It does
not look at what the name of the parameter means where the reference is inserted. In the default
value of another parameter it has no value yet, and a nearer parameter or declaration can have the
same name. The main statement says exactly when all references mean the parameter that they should.

## Main results

* `Lower.expr_traces` and those after it: what lowering a tree adds to the traces in it.
* `Session.traces_usable_iff`: the traces in a lowered file, and when they can be used.
-/
namespace ExtensionLowering

open List

/-! ## Parts of lowered code -/

section Parts

variable {ids : List Ident} {file : Option Ident} {m : TraceName}

theorem thunkIf_survey (lazy : Bool) (e : Expr) :
    (thunkIf lazy e).survey (tracing ids) m = e.survey (tracing ids) m := by
  cases lazy <;> rfl

theorem simplifyObject_survey (e : Expr) :
    (simplifyObject e).survey (tracing ids) m = e.survey (tracing ids) m := by
  unfold simplifyObject
  split <;> rfl

section Functions

variable {self : Option Ident} {ps ps' : List Param} {b : Block} {sites sites' : List TraceSite}
  (hnames : ps'.map (·.name) = ps.map (·.name))
include hnames

/-- What is noted on a function with the names of the parameters `ps`. -/
theorem function_noted
    (hps : Noted ids file (Param.allSurvey (tracing ids) (m.inside false self ps) ps') sites)
    (hb : Noted ids file (b.survey (tracing ids) true (m.inside true self ps)) sites') :
    Noted ids file (Param.allSurvey (tracing ids) (m.inside false self ps') ps' ++
      b.survey (tracing ids) true (m.inside true self ps')) (sites ++ sites') := by
  rw [TraceName.inside_congr hnames, TraceName.inside_congr hnames]
  exact hps.append hb

theorem arrow_noted {i : Info} {e : Expr} {sites'' : List TraceSite}
    (hps : Noted ids file (Param.allSurvey (tracing ids) (m.inside false none ps) ps') sites)
    (hb : Noted ids file (b.survey (tracing ids) true (m.inside true none ps)) sites')
    (he : Noted ids file
      (if b.isMissing then e.survey (tracing ids) (m.inside true none ps) else []) sites'') :
    Noted ids file ((Expr.arrow i ps' b e).survey (tracing ids) m)
      (sites ++ (sites' ++ sites'')) := by
  have hfn := (function_noted hnames hps hb).append he
  rw [← TraceName.inside_congr hnames] at hfn
  rwa [append_assoc, append_assoc] at hfn

end Functions

attribute [local simp] Expr.survey Expr.allSurvey Stmt.allSurvey Stmt.survey Expr.apply
  Expr.applyTyped

/-- What follows a bind is in the scope of its parameters and in that of its body. -/
theorem continuation_survey (params : List Ident) (body : List Stmt) :
    (continuation params body).survey (tracing ids) m =
      Stmt.allSurvey (tracing ids)
        ((m.inside true none (params.map .ofIdent)).within (Stmt.scope true body)) body := by
  unfold continuation
  split
  · rename_i e he
    obtain ⟨t, rfl⟩ := returned?_eq he
    simp [Expr.lambda, Param.allSurvey_ofIdent, Block.survey, Block.isMissing, Stmt.scope,
      Stmt.lexical, Stmt.allHoisted, Stmt.hoisted]
    rfl
  · simp [Expr.lambdaBlock, Param.allSurvey_ofIdent, Block.survey, Block.ofStmts, Block.isMissing]
    rfl

theorem bodyValue_survey (body : List Stmt) :
    (bodyValue body).survey (tracing ids) m =
      Stmt.allSurvey (tracing ids) (m.within (Stmt.scope true body)) body := by
  unfold bodyValue
  cases he : returned? body with
  | some e =>
    obtain ⟨t, rfl⟩ := returned?_eq he
    simp [Stmt.scope, Stmt.lexical, Stmt.allHoisted, Stmt.hoisted]
  | none =>
    simp [Expr.immediate, Expr.lambdaBlock, Param.allSurvey, Block.survey, Block.ofStmts,
      Block.isMissing]
    rfl

end Parts

namespace Pin

variable {ids : List Ident} {m : TraceName}

/-- No pin is for the name of trace parameters. -/
def Apart (pins : List Pin) : Prop :=
  ∀ p ∈ pins, p.ident.name ≠ traceParameter

theorem Apart.after {pins : List Pin} (h : Apart pins) (s : Stmt) :
    Apart (after pins s).1 ∧ Apart (after pins s).2 :=
  ⟨fun p hp => h p (mem_take.1.1 hp).1, fun p hp => h p (mem_take.2.1 hp).1⟩

theorem Apart.not_mem_scope {pins : List Pin} (h : Apart pins) {body : Bool} :
    traceParameter ∉ Stmt.scope body (pins.map stmt) := by
  rw [mem_scope_stmts]
  rintro ⟨p, hp, hname⟩
  exact h p hp hname

section Given

variable (hids : ∀ id ∈ ids, id.IsGiven)
include hids

theorem allSurvey_stmts (pins : List Pin) :
    Stmt.allSurvey (tracing ids) m (pins.map stmt) = [] := by
  induction pins with
  | nil => rfl
  | cons p pins ih =>
    have hname := Lower.ofName_silent hids p.name m
    simp [Stmt.allSurvey, ih, stmt, Stmt.constant, Stmt.survey, Declarator.allSurvey,
      Declarator.survey, hname]

theorem allSurvey_place (pins : List Pin) (ss : List Stmt) :
    Stmt.allSurvey (tracing ids) m (place pins ss).1 = Stmt.allSurvey (tracing ids) m ss := by
  induction ss generalizing pins with
  | nil => rfl
  | cons s ss ih =>
    rw [place_cons, Stmt.allSurvey, Stmt.allSurvey, Stmt.allSurvey_append, allSurvey_stmts hids,
      ih, nil_append]

end Given

end Pin

namespace Lower

variable {ids : List Ident} {file : Option Ident} (env : Env)

theorem arguments_length (es : List Expr) (u : Lowering) :
    ((arguments env es).run u).1.length = es.length := by
  induction es generalizing u with
  | nil => rfl
  | cons e es ih =>
    have hrun : ((arguments env (e :: es)).run u).1 = thunkIf e.lazy ((expr env e).run u).1 ::
        ((arguments env es).run ((expr env e).run u).2).1 := rfl
    rw [hrun, length_cons, length_cons, ih]

theorem placePins_traces (pins : List Pin) (ss : List Stmt) :
    Traces ids file (placePins pins ss) (· = Pin.place pins ss) := by
  rw [placePins]
  dsimp only
  split
  · exact giveUp_traces.finish fun _ _ => rfl
  · exact .pure rfl

/-- Pins change neither what is noted on a block nor what the name of trace parameters means in
it. -/
theorem insertPins_traces (pins : List Pin) (ss : List Stmt) (body : Bool) (m : TraceName) :
    Traces ids file (insertPins pins ss) fun ss' => Pin.Apart pins → ∀ sites,
      Noted ids file (Stmt.allSurvey (tracing ids) (m.within (Stmt.scope body ss)) ss) sites →
        Noted ids file
          (Stmt.allSurvey (tracing ids) (m.within (Stmt.scope body ss')) ss') sites := by
  rw [insertPins]
  refine .of_given fun hids => (placePins_traces pins ss).finish ?_
  rintro _ rfl hpins sites h
  have hscope : m.within (Stmt.scope body ((Pin.place pins ss).2.map Pin.stmt ++
      (Pin.place pins ss).1)) = m.within (Stmt.scope body ss) := by
    refine TraceName.within_congr ?_
    rw [Stmt.mem_scope_append, Pin.mem_scope_stmts, or_comm, Pin.mem_scope_place, or_iff_left]
    rintro ⟨p, hp, hname⟩
    exact hpins p hp hname
  rwa [hscope, Stmt.allSurvey_append, Pin.allSurvey_stmts hids, Pin.allSurvey_place hids,
    nil_append]

/-- A call with what is noted on its arguments. -/
def CallNoted (ids : List Ident) (file : Option Ident) (m : TraceName) (sites : List TraceSite)
    (e : Expr) : Prop :=
  ∃ i facts callee ts args, e = .call i facts callee ts args ∧
    Noted ids file (Expr.allSurvey (tracing ids) m args) sites

/-- What is noted on the lowered statements of a Do body, and where they can be put. -/
structure ChainNoted (ids : List Ident) (file : Option Ident) (m : TraceName) (ss : List Stmt)
    (sites : List TraceSite) (r : List Stmt × List Pin × Bool) : Prop where
  noted : Noted ids file (Stmt.allSurvey (tracing ids) m r.1) sites
  scope : traceParameter ∈ Stmt.scope true r.1 ↔ traceParameter ∈ Stmt.segment ss
  left : Pin.Apart r.2.1
  settled : r.2.2 = ! hasBind ss

/-- Pins in front change neither what is noted nor what the name of trace parameters means. -/
theorem ChainNoted.pinned (hids : ∀ id ∈ ids, id.IsGiven) {m : TraceName} {ss : List Stmt}
    {sites : List TraceSite} {r : List Stmt × List Pin × Bool} {pins : List Pin}
    (h : ChainNoted ids file (m.within (Stmt.segment ss)) ss sites r) (hpins : Pin.Apart pins) :
    Noted ids file
      (Stmt.allSurvey (tracing ids) (m.within (Stmt.scope true (pins.map Pin.stmt ++ r.1)))
        (pins.map Pin.stmt ++ r.1)) sites := by
  have hscope : m.within (Stmt.scope true (pins.map Pin.stmt ++ r.1)) =
      m.within (Stmt.segment ss) := by
    refine TraceName.within_congr ?_
    rw [Stmt.mem_scope_append, or_iff_right hpins.not_mem_scope, h.scope]
  rw [hscope, Stmt.allSurvey_append, Pin.allSurvey_stmts hids, nil_append]
  exact h.noted

/-! ## The walk -/

/-- The expression that `x` gives notes `sites` where the name of the trace parameter means `m`. -/
abbrev Marks (ids : List Ident) (file : Option Ident) (m : TraceName) (x : Lower Expr)
    (sites : List TraceSite) : Prop :=
  Traces ids file x fun e => Noted ids file (e.survey (tracing ids) m) sites

/-- A call that stays a call adds to its arguments what completes them. -/
theorem keptCall_traces (i : Info) (facts : CallFacts) (fn : Expr) (ts : List TypeRef)
    (args as : List Expr) (m : TraceName) :
    Traces ids file (do return Expr.call i facts fn ts (← complete env i.token facts args as))
      fun e' => ∃ as', e' = .call i facts fn ts as' ∧
        (Noted ids file (Expr.allSurvey (tracing ids) m as) (Expr.allTraceSites env m args) →
          Noted ids file (Expr.allSurvey (tracing ids) m as')
            (Expr.allTraceSites env m args ++ env.completeSites m i.token facts args)) := by
  refine (complete_traces env i.token facts args as m).finish ?_
  rintro _ ⟨more, rfl, hmore⟩
  refine ⟨_, rfl, fun has => ?_⟩
  rw [Expr.allSurvey_append]
  exact has.append hmore

mutual

theorem expr_traces (env : Env) :
    ∀ (e : Expr) {c : TraceName}, e.survey (tracing ids) c = [] → ∀ m,
      Marks ids file m (expr env e) (e.traceSites env m)
  | .missing, _, _, _ | .number .., _, _, _ | .string .., _, _, _ | .bool .., _, _, _
  | .this _, _, _, _ | .super _, _, _, _ => .pure .nil
  | .ident id, _, h, m => by
    have hid : id ∉ ids := by
      intro hid
      simp [Expr.survey, tracing, hid] at h
    exact (name_traces hid).mono fun e he => .of_eq_nil (he m)
  | .prop i facts o n q, _, h, m => by
    have ho := expr_traces env o h m
    rw [Lower.expr, Expr.traceSites]
    split
    · exact ho
    · cases facts.signature with
      | none => exact ho.finish fun o' ho' => ho'
      | some s =>
        cases hkind : s.kind with
        | static =>
          simp only [hkind]
          exact (extensionReference_traces env s i.token).mono fun e he => .of_eq_nil (he m)
        | getter =>
          simp only [hkind]
          refine ho.bind fun o' => (extensionReference_traces env s i.token).bind fun fn => ?_
          refine (withTrace_traces env s i.token _ m).finish ?_
          rintro _ ⟨more, rfl, hmore⟩ hfn ho'
          simpa [Expr.apply, Expr.applyTyped, Expr.survey, Expr.allSurvey, simplifyObject_survey,
            hfn m] using ho'.append hmore
        | _ =>
          simp only [hkind]
          exact ho.finish fun o' ho' => ho'
  | .elem i facts o x, _, h, m => by
    obtain ⟨ho, hx⟩ := append_eq_nil_iff.1 h
    rw [Lower.expr, Expr.traceSites]
    refine (expr_traces env o ho m).bind fun o' => ?_
    refine (expr_traces env x hx m).bind fun x' => ?_
    have hkept : Traces ids file (Pure.pure (Expr.elem i facts o' x')) fun e' =>
        Noted ids file (x'.survey (tracing ids) m) (x.traceSites env m) →
        Noted ids file (o'.survey (tracing ids) m) (o.traceSites env m) →
          Noted ids file (e'.survey (tracing ids) m)
            (o.traceSites env m ++ x.traceSites env m) :=
      .pure fun hx' ho' => ho'.append hx'
    cases facts.signature with
    | none => exact hkept
    | some s =>
      dsimp only
      split
      · refine (extensionReference_traces env s i.token).finish fun fn hfn hx' ho' => ?_
        exact extensionCallTyped_noted hfn _ _
          (by simpa [Expr.allSurvey] using ho'.append hx')
      · exact hkept
  | .call i facts callee ts args, c, h, m => by
    obtain ⟨hcallee, hargs⟩ := append_eq_nil_iff.1 h
    have hc := expr_traces env callee hcallee m
    have ha := arguments_traces env args hargs m
    have hcall (fn : Expr) (as : List Expr) :=
      @keptCall_traces ids file env i facts fn ts args as m
    rw [Lower.expr, Expr.traceSites]
    cases hroute : callRoute env.compilation facts callee args with
    | plain =>
      exact hc.bind fun callee' => ha.bind fun args' =>
        (hcall callee' args').mono fun _ ⟨_, heq, hargs'⟩ has hc' => heq ▸ hc'.append (hargs' has)
    | pipe => exact stagesOf_traces env args hargs m
    | identity => exact only_traces env args hargs m
    | remove => exact .pure .nil
    | derive =>
      exact (derive_traces env facts.derivation i.token).mono fun e he => .of_eq_nil (he m)
    | fuse target =>
      have hfits := callRoute_fits env.compilation facts callee args
      rw [hroute] at hfits
      dsimp only
      cases hkept : callee.isKept env.compilation with
      | true =>
        obtain ⟨arg, rfl⟩ := hfits
        refine (kept_traces env callee hcallee hkept m).bind fun inner => ?_
        refine (ha.fact (F := (·.length = 1)) (arguments_length env [arg])).bind fun args' => ?_
        split
        · rename_i j g dead ts' inner' arg'
          rw [if_pos rfl]
          refine (dataFirstCall_traces env target i.token arg' inner' m).bind fun fused => ?_
          refine (retract_traces env dead).finish fun _ _ hfused has hinner => ?_
          obtain ⟨_, _, _, _, _, heq, hkept'⟩ := hinner
          cases heq
          exact hfused _ ((hkept'.append (by simpa [Expr.allSurvey] using has.2)).swap)
        · rename_i hother
          refine (hcall inner args').mono fun e' _ has hinner => ?_
          obtain ⟨_, _, _, _, _, heq, -⟩ := hinner
          obtain ⟨arg', harg⟩ := length_eq_one_iff.1 has.1
          exact (hother _ _ _ _ _ _ heq harg).elim
      | false =>
        refine hc.bind fun inner => ha.bind fun args' => ?_
        split <;>
          exact (hcall _ _).mono fun _ ⟨_, heq, hargs'⟩ has hc' => heq ▸ hc'.append (hargs' has)
    | chain map flatMap => exact doArgument_traces env map flatMap args hargs m
    | extension s =>
      refine hc.bind fun callee' => (extensionReference_traces env s i.token).bind fun fn => ?_
      refine (retract_traces env callee').bind fun _ => ha.bind fun args' => ?_
      exact (hcall fn args').mono fun _ ⟨_, heq, hargs'⟩ has _ hfn _ =>
        heq ▸ (Noted.of_eq_nil (hfn m)).append (hargs' has)
    | unresolved =>
      exact (unresolvedCall_traces env i.token callee).finish fun _ _ =>
        .of_eq_nil (Expr.survey_eq_nil h)
    | method s =>
      refine (objectOf_traces env callee hcallee m).bind fun o' => ?_
      refine (exprs_traces env args hargs m).bind fun args' => ?_
      refine (callExtension_traces env s i.token ts _ args' m).mono fun e' he has ho' => ?_
      dsimp only
      rw [← append_assoc]
      exact he _ (by simpa only [thunkIf_survey] using ho'.append has)
    | function s =>
      refine (exprs_traces env args hargs m).bind fun args' => ?_
      refine (callExtension_traces env s i.token ts _ _ m).mono fun e' he has => he _ ?_
      rw [thunkIf_survey]
      cases args' with
      | nil => exact has
      | cons e es => exact has
    | methodPipe =>
      exact (objectOf_traces env callee hcallee m).bind fun o' =>
        (stages_traces env args hargs o' m).mono fun e' he ho' => he _ ho'
  | .new i callee ts args, _, h, m => by
    obtain ⟨hcallee, hargs⟩ := append_eq_nil_iff.1 h
    rw [Lower.expr, Expr.traceSites]
    exact (expr_traces env callee hcallee m).bind fun callee' =>
      (exprs_traces env args hargs m).finish fun args' ha' hc' => hc'.append ha'
  | .binary i facts l op r, _, h, m => by
    obtain ⟨hsum, hlr⟩ := append_eq_nil_iff.1 h
    obtain ⟨hl, hr⟩ := append_eq_nil_iff.1 hlr
    have htoken : i.token ≠ Token.synthetic "+" := by
      intro htoken
      simp [tracing, htoken] at hsum
    have hkept : Marks ids file m
        (do
          let l ← expr env l
          return Expr.binary i facts l op (← expr env r))
        (l.traceSites env m ++ r.traceSites env m) := by
      refine (expr_traces env l hl m).bind fun l' => (expr_traces env r hr m).finish ?_
      intro r' hr' hl'
      simpa [Expr.survey, tracing, htoken] using hl'.append hr'
    rw [Lower.expr, Expr.traceSites]
    split
    · refine (expr_traces env l hl m).bind fun first => ?_
      cases hfirst : r.dataFirst? with
      | none =>
        refine (expr_traces env r hr m).finish fun r' hr' hl' => ?_
        simpa [Expr.apply, Expr.applyTyped, Expr.survey, Expr.allSurvey] using (hl'.append hr').swap
      | some target =>
        refine (callArguments_traces env r hr m).bind fun args' => ?_
        refine (dataFirstCall_traces env target r.token first args' m).mono ?_
        exact fun e' he hargs' hl' => he _ (hl'.append hargs')
    · cases facts.signature with
      | none => exact hkept
      | some s =>
        dsimp only
        split
        · cases env.compilation.operatorDeclaration? s.decl with
          | none => exact (fail_traces env _).finish fun _ _ => .of_eq_nil (Expr.survey_eq_nil h)
          | some d =>
            refine (expr_traces env l hl m).bind fun l' => ?_
            refine (expr_traces env r hr m).bind fun r' => ?_
            refine (declarationReference_traces env (some d) i.token).bind fun fn => ?_
            refine (withTrace_traces env s i.token _ m).finish ?_
            rintro _ ⟨more, rfl, hmore⟩ hfn hr' hl'
            exact extensionCallTyped_noted hfn _ _ (by
              simpa [Expr.allSurvey, thunkIf_survey] using hl'.append (hr'.append hmore))
        · exact hkept
  | .unary _ _ e, _, h, m | .paren _ e, _, h, m | .void _ e, _, h, m | .spread _ e, _, h, m => by
    rw [Lower.expr, Expr.traceSites]
    exact (expr_traces env e h m).finish fun e' he => he
  | .cond i t y n, _, h, m => by
    obtain ⟨ht, hyn⟩ := append_eq_nil_iff.1 h
    obtain ⟨hy, hn⟩ := append_eq_nil_iff.1 hyn
    rw [Lower.expr, Expr.traceSites]
    refine (expr_traces env t ht m).bind fun t' => ?_
    refine (expr_traces env y hy m).bind fun y' => ?_
    exact (expr_traces env n hn m).finish fun n' hn' hy' ht' => ht'.append (hy'.append hn')
  | .array i es, _, h, m => by
    rw [Lower.expr, Expr.traceSites]
    exact (exprs_traces env es h m).finish fun es' hes => hes
  | .object i ps, _, h, m => by
    rw [Lower.expr, Expr.traceSites]
    exact (properties_traces env ps h m).finish fun ps' hps => hps
  | .arrow i ps b e, _, h, m => by
    obtain ⟨hps, hbe⟩ := append_eq_nil_iff.1 h
    obtain ⟨hb, he⟩ := append_eq_nil_iff.1 hbe
    have hblock := (block_traces (env.inside ps) b hb true (m.inside true none ps)).fact
      (F := (·.isMissing = b.isMissing)) (block_isMissing (env.inside ps) b)
    rw [Lower.expr, Expr.traceSites]
    refine (params_traces (env.inside ps) ps hps (m.inside false none ps)).bind fun ps' => ?_
    refine hblock.bind fun b' => ?_
    split
    · rename_i hmissing
      rw [if_pos hmissing] at he
      refine (expr_traces (env.inside ps) e he (m.inside true none ps)).finish ?_
      rintro e' he' ⟨hb', hblock'⟩ ⟨hnames, hps'⟩
      exact arrow_noted hnames hps' hblock' (by rwa [hb', if_pos hmissing])
    · rename_i hmissing
      refine .pure ?_
      rintro ⟨hb', hblock'⟩ ⟨hnames, hps'⟩
      exact arrow_noted hnames hps' hblock' (by rw [hb', if_neg hmissing]; exact .nil)
  | .func i self ps b, _, h, m => by
    obtain ⟨hps, hb⟩ := append_eq_nil_iff.1 h
    rw [Lower.expr, Expr.traceSites]
    exact (params_traces (env.inside ps) ps hps (m.inside false self ps)).bind fun ps' =>
      (block_traces (env.inside ps) b hb true _).finish
        fun b' hb' ⟨hnames, hps'⟩ => function_noted hnames hps' hb'

theorem exprs_traces (env : Env) :
    ∀ (es : List Expr) {c : TraceName}, Expr.allSurvey (tracing ids) c es = [] → ∀ m,
      Traces ids file (exprs env es) fun es' =>
        Noted ids file (Expr.allSurvey (tracing ids) m es') (Expr.allTraceSites env m es)
  | [], _, _, _ => .pure .nil
  | e :: es, _, h, m => by
    obtain ⟨he, hes⟩ := append_eq_nil_iff.1 h
    rw [exprs, Expr.allTraceSites]
    exact (expr_traces env e he m).bind fun e' =>
      (exprs_traces env es hes m).finish fun es' hes' he' => he'.append hes'

theorem arguments_traces (env : Env) :
    ∀ (es : List Expr) {c : TraceName}, Expr.allSurvey (tracing ids) c es = [] → ∀ m,
      Traces ids file (arguments env es) fun es' =>
        Noted ids file (Expr.allSurvey (tracing ids) m es') (Expr.allTraceSites env m es)
  | [], _, _, _ => .pure .nil
  | e :: es, _, h, m => by
    obtain ⟨he, hes⟩ := append_eq_nil_iff.1 h
    rw [arguments, Expr.allTraceSites]
    refine (expr_traces env e he m).bind fun e' => ?_
    refine (arguments_traces env es hes m).finish ?_
    intro es' hes' he'
    rw [Expr.allSurvey, thunkIf_survey]
    exact he'.append hes'

theorem only_traces (env : Env) :
    ∀ (es : List Expr) {c : TraceName}, Expr.allSurvey (tracing ids) c es = [] → ∀ m,
      Marks ids file m (only env es) (Expr.onlyTraceSites env m es)
  | [], _, _, _ | _ :: _ :: _, _, _, _ => .pure .nil
  | [e], _, h, m => expr_traces env e (append_eq_nil_iff.1 h).1 m

theorem callArguments_traces (env : Env) :
    ∀ (e : Expr) {c : TraceName}, e.survey (tracing ids) c = [] → ∀ m,
      Traces ids file (callArguments env e) fun es' =>
        Noted ids file (Expr.allSurvey (tracing ids) m es') (e.argumentTraceSites env m) := by
  intro e c h m
  cases e with
  | call _ _ _ _ args => exact exprs_traces env args (append_eq_nil_iff.1 h).2 m
  | _ => exact .pure .nil

theorem objectOf_traces (env : Env) :
    ∀ (e : Expr) {c : TraceName}, e.survey (tracing ids) c = [] → ∀ m,
      Marks ids file m (objectOf env e) (e.objectTraceSites env m) := by
  intro e c h m
  cases e with
  | prop _ _ o _ _ => exact expr_traces env o h m
  | _ => exact .pure .nil

theorem stagesOf_traces (env : Env) :
    ∀ (es : List Expr) {c : TraceName}, Expr.allSurvey (tracing ids) c es = [] → ∀ m,
      Marks ids file m (stagesOf env es) (Expr.pipeTraceSites env m es)
  | [], _, _, _ => .pure .nil
  | e :: es, _, h, m => by
    obtain ⟨he, hes⟩ := append_eq_nil_iff.1 h
    rw [stagesOf, Expr.pipeTraceSites]
    exact (expr_traces env e he m).bind fun acc =>
      (stages_traces env es hes acc m).mono fun e' he' hacc => he' _ hacc

theorem stages_traces (env : Env) :
    ∀ (es : List Expr) {c : TraceName}, Expr.allSurvey (tracing ids) c es = [] → ∀ acc m,
      Traces ids file (stages env acc es) fun e' => ∀ sites,
        Noted ids file (acc.survey (tracing ids) m) sites →
          Noted ids file (e'.survey (tracing ids) m) (sites ++ Expr.stageTraceSites env m es)
  | [], _, _, _, _ => .pure fun sites h => by rwa [Expr.stageTraceSites, append_nil]
  | e :: es, _, h, acc, m => by
    obtain ⟨he, hes⟩ := append_eq_nil_iff.1 h
    rw [stages, Expr.stageTraceSites]
    cases hfirst : e.dataFirst? with
    | none =>
      refine (expr_traces env e he m).bind fun e' => ?_
      refine (stages_traces env es hes (e'.apply [acc]) m).mono ?_
      intro out hout he' sites hacc
      rw [if_neg (by simp), ← append_assoc]
      refine hout _ ?_
      simpa [Expr.apply, Expr.applyTyped, Expr.survey, Expr.allSurvey] using (hacc.append he').swap
    | some target =>
      refine (callArguments_traces env e he m).bind fun args => ?_
      refine (dataFirstCall_traces env target e.token acc args m).bind fun next => ?_
      refine (stages_traces env es hes next m).mono fun out hout hnext hargs sites hacc => ?_
      rw [if_pos (by simp), ← append_assoc]
      exact hout _ (hnext _ (hacc.append hargs))

/-- A kept call is lowered to a call, whose arguments are noted. -/
theorem kept_traces (env : Env) :
    ∀ (e : Expr) {c : TraceName}, e.survey (tracing ids) c = [] →
      e.isKept env.compilation = true → ∀ m,
        Traces ids file (expr env e) (CallNoted ids file m (e.keptTraceSites env m)) := by
  intro e c h hkept m
  cases e with
  | call i facts callee ts args =>
    obtain ⟨hcallee, hargs⟩ := append_eq_nil_iff.1 h
    have hc := expr_traces env callee hcallee m
    have ha := arguments_traces env args hargs m
    have hcall (fn : Expr) (as : List Expr) :=
      (@keptCall_traces ids file env i facts fn ts args as m).mono
        fun e' ⟨as', heq, has'⟩ has => show CallNoted ids file m _ e' from
          ⟨i, facts, fn, ts, as', heq, has' has⟩
    rw [Expr.isKept] at hkept
    rw [Lower.expr, Expr.keptTraceSites]
    cases hroute : callRoute env.compilation facts callee args with
    | plain =>
      rw [if_neg (by simp)]
      exact hc.bind fun callee' => ha.bind fun args' =>
        (hcall callee' args').mono fun e' he has _ => he has
    | extension s =>
      rw [if_neg (by simp)]
      refine hc.bind fun callee' => (extensionReference_traces env s i.token).bind fun fn => ?_
      refine (retract_traces env callee').bind fun _ => ha.bind fun args' => ?_
      exact (hcall fn args').mono fun e' he has _ _ _ => he has
    | unresolved =>
      rw [if_pos rfl]
      exact (unresolvedCall_traces env i.token callee).finish fun _ _ =>
        ⟨i, facts, callee, ts, args, rfl, .of_eq_nil (Expr.allSurvey_eq_nil hargs)⟩
    | fuse target =>
      rw [hroute, Bool.not_eq_true'] at hkept
      rw [if_neg (by simp)]
      refine hc.bind fun inner => ha.bind fun args' => ?_
      have hsame := (hcall inner args').mono fun e' he has
        (_ : Noted ids file (inner.survey (tracing ids) m) (callee.traceSites env m)) => he has
      rw [hkept]
      split <;> exact hsame
    | _ =>
      rw [hroute] at hkept
      cases hkept
  | _ => cases hkept

theorem properties_traces (env : Env) :
    ∀ (ps : List Property) {c : TraceName}, Property.allSurvey (tracing ids) c ps = [] → ∀ m,
      Traces ids file (properties env ps) fun ps' =>
        Noted ids file (Property.allSurvey (tracing ids) m ps') (Property.allTraceSites env m ps)
  | [], _, _, _ => .pure .nil
  | p :: ps, _, h, m => by
    obtain ⟨hp, hps⟩ := append_eq_nil_iff.1 h
    rw [properties, Property.allTraceSites]
    exact (property_traces env p hp m).bind fun p' =>
      (properties_traces env ps hps m).finish fun ps' hps' hp' => hp'.append hps'

theorem property_traces (env : Env) :
    ∀ (p : Property) {c : TraceName}, p.survey (tracing ids) c = [] → ∀ m,
      Traces ids file (property env p) fun p' =>
        Noted ids file (p'.survey (tracing ids) m) (p.traceSites env m)
  | .assign t k v, _, h, m => by
    rw [assign_survey] at h
    obtain ⟨hk, hv⟩ := append_eq_nil_iff.1 h
    rw [property, Property.traceSites]
    dsimp only
    split
    · rw [pure_bind]
      refine (expr_traces env v hv m).finish fun v' hv' => ?_
      rw [assign_survey]
      exact (Noted.of_eq_nil (Expr.survey_eq_nil hk)).append hv'
    · refine (expr_traces env k hk m).bind fun k' => (expr_traces env v hv m).finish ?_
      intro v' hv' hk'
      rw [assign_survey]
      exact hk'.append hv'
  | .shorthand t name, _, h, m => by
    have hname : ∀ i ∈ name, i ∉ ids := by
      rintro i rfl hi
      simp [Property.survey, tracing, hi] at h
    exact (shorthand_traces t hname).mono fun p hp => .of_eq_nil hp
  | .spread t e, _, h, m => by
    rw [property, Property.traceSites]
    exact (expr_traces env e h m).finish fun e' he => he

theorem params_traces (env : Env) :
    ∀ (ps : List Param) {c : TraceName}, Param.allSurvey (tracing ids) c ps = [] → ∀ m,
      Traces ids file (params env ps) fun ps' => ps'.map (·.name) = ps.map (·.name) ∧
        Noted ids file (Param.allSurvey (tracing ids) m ps') (Param.allTraceSites env m ps)
  | [], _, _, _ => .pure ⟨rfl, .nil⟩
  | .mk t name type optional rest init :: ps, _, h, m => by
    obtain ⟨hinit, hps⟩ := append_eq_nil_iff.1 h
    rw [params, param, Param.allTraceSites, Param.traceSites, bind_assoc]
    simp only [pure_bind]
    refine (expr_traces env init hinit m).bind fun init' => ?_
    refine (params_traces env ps hps m).finish ?_
    rintro ps' ⟨hnames, hps'⟩ hinit'
    exact ⟨congrArg (name :: ·) hnames, hinit'.append hps'⟩

theorem block_traces (env : Env) :
    ∀ (b : Block) {body' : Bool} {c : TraceName}, b.survey (tracing ids) body' c = [] →
      ∀ (body : Bool) m, Traces ids file (block env b) fun b' =>
        Noted ids file (b'.survey (tracing ids) body m) (b.traceSites env body m)
  | .missing, _, _, _, _, _ => .pure .nil
  | .mk t unique ss, _, _, h, body, m => by
    have hss := (stmts_traces env ss h (m.within (Stmt.scope body ss))).fact
      (F := fun ss' => Stmt.scope body ss' = Stmt.scope body ss) (stmts_scope env body ss)
    rw [block_mk, Block.traceSites]
    refine (registerPins_traces env unique).bind fun pins => hss.bind fun ss' => ?_
    refine (insertPins_traces pins ss' body m).finish ?_
    rintro ss'' hss'' ⟨hscope, hss'⟩ hpins
    exact hss'' hpins _ (by rwa [hscope])

theorem stmts_traces (env : Env) :
    ∀ (ss : List Stmt) {c : TraceName}, Stmt.allSurvey (tracing ids) c ss = [] → ∀ m,
      Traces ids file (stmts env ss) fun ss' =>
        Noted ids file (Stmt.allSurvey (tracing ids) m ss') (Stmt.allTraceSites env m ss)
  | [], _, _, _ => .pure .nil
  | s :: ss, _, h, m => by
    obtain ⟨hs, hss⟩ := append_eq_nil_iff.1 h
    rw [stmts, Stmt.allTraceSites]
    exact (stmt_traces env s hs m).bind fun s' =>
      (stmts_traces env ss hss m).finish fun ss' hss' hs' => hs'.append hss'

theorem stmt_traces (env : Env) :
    ∀ (s : Stmt) {c : TraceName}, s.survey (tracing ids) c = [] → ∀ m,
      Traces ids file (stmt env s) fun s' =>
        Noted ids file (s'.survey (tracing ids) m) (s.traceSites env m)
  | .missing, _, _, _ | .importDecl .., _, _, _ | .exportDecl .., _, _, _ => .pure .nil
  | .block b, _, h, m => by
    rw [stmt, Stmt.traceSites]
    exact (block_traces env b h false m).finish fun b' hb => hb
  | .expr _ e, _, h, m | .ret _ e, _, h, m | .throw _ e, _, h, m => by
    rw [stmt, Stmt.traceSites]
    exact (expr_traces env e h m).finish fun e' he => he
  | .cond t e y n, _, h, m => by
    obtain ⟨he, hyn⟩ := append_eq_nil_iff.1 h
    obtain ⟨hy, hn⟩ := append_eq_nil_iff.1 hyn
    rw [stmt, Stmt.traceSites]
    refine (expr_traces env e he m).bind fun e' => ?_
    refine (stmt_traces env y hy m).bind fun y' => ?_
    exact (stmt_traces env n hn m).finish fun n' hn' hy' he' => he'.append (hy'.append hn')
  | .varDecl t x k ds, _, h, m => by
    rw [stmt, Stmt.traceSites]
    exact (declarators_traces env ds h m).finish fun ds' hds => hds
  | .funcDecl t x name ps r b, _, h, m => by
    obtain ⟨hps, hb⟩ := append_eq_nil_iff.1 h
    rw [stmt, Stmt.traceSites]
    exact (params_traces (env.inside ps) ps hps (m.inside false none ps)).bind fun ps' =>
      (block_traces (env.inside ps) b hb true _).finish
        fun b' hb' ⟨hnames, hps'⟩ => function_noted hnames hps' hb'
  | .classDecl t x name e ms, _, h, m => by
    obtain ⟨he, hms⟩ := append_eq_nil_iff.1 h
    rw [stmt, Stmt.traceSites]
    exact (expr_traces env e he m).bind fun e' =>
      (members_traces env ms hms m).finish fun ms' hms' he' => he'.append hms'

theorem declarators_traces (env : Env) :
    ∀ (ds : List Declarator) {c : TraceName}, Declarator.allSurvey (tracing ids) c ds = [] → ∀ m,
      Traces ids file (declarators env ds) fun ds' =>
        Noted ids file (Declarator.allSurvey (tracing ids) m ds')
          (Declarator.allTraceSites env m ds)
  | [], _, _, _ => .pure .nil
  | .mk t name type init :: ds, _, h, m => by
    obtain ⟨hinit, hds⟩ := append_eq_nil_iff.1 h
    rw [declarators, declarator, Declarator.allTraceSites, Declarator.traceSites, bind_assoc]
    simp only [pure_bind]
    exact (expr_traces env init hinit m).bind fun init' =>
      (declarators_traces env ds hds m).finish fun ds' hds' hinit' => hinit'.append hds'

theorem members_traces (env : Env) :
    ∀ (ms : List Member) {c : TraceName}, Member.allSurvey (tracing ids) c ms = [] → ∀ m,
      Traces ids file (members env ms) fun ms' =>
        Noted ids file (Member.allSurvey (tracing ids) m ms') (Member.allTraceSites env m ms)
  | [], _, _, _ => .pure .nil
  | x :: xs, _, h, m => by
    obtain ⟨hx, hxs⟩ := append_eq_nil_iff.1 h
    rw [members, Member.allTraceSites]
    exact (member_traces env x hx m).bind fun x' =>
      (members_traces env xs hxs m).finish fun xs' hxs' hx' => hx'.append hxs'

theorem member_traces (env : Env) :
    ∀ (x : Member) {c : TraceName}, x.survey (tracing ids) c = [] → ∀ m,
      Traces ids file (member env x) fun x' =>
        Noted ids file (x'.survey (tracing ids) m) (x.traceSites env m)
  | .ctor _ ps b, _, h, m | .method _ _ _ ps b, _, h, m => by
    obtain ⟨hps, hb⟩ := append_eq_nil_iff.1 h
    rw [member, Member.traceSites]
    exact (params_traces (env.inside ps) ps hps (m.inside false none ps)).bind fun ps' =>
      (block_traces (env.inside ps) b hb true _).finish
        fun b' hb' ⟨hnames, hps'⟩ => function_noted hnames hps' hb'
  | .field t x name type e, _, h, m => by
    rw [member, Member.traceSites]
    exact (expr_traces env e h m).finish fun e' he => he

theorem doArgument_traces (env : Env) (map flatMap : Signature) :
    ∀ (es : List Expr) {c : TraceName}, Expr.allSurvey (tracing ids) c es = [] → ∀ m,
      Marks ids file m (doArgument env map flatMap es) (Expr.doTraceSites env m map flatMap es)
  | [], _, _, _ | _ :: _ :: _, _, _, _ => .pure .nil
  | [e], _, h, m => doArrow_traces env map flatMap e (append_eq_nil_iff.1 h).1 m

theorem doArrow_traces (env : Env) (map flatMap : Signature) :
    ∀ (e : Expr) {c : TraceName}, e.survey (tracing ids) c = [] → ∀ m,
      Marks ids file m (doArrow env map flatMap e) (e.arrowTraceSites env m map flatMap) := by
  intro e c h m
  cases e with
  | arrow _ _ b _ =>
    exact doBlock_traces env map flatMap b
      (append_eq_nil_iff.1 (append_eq_nil_iff.1 h).2).1 m
  | _ => exact .pure .nil

theorem doBlock_traces (env : Env) (map flatMap : Signature) :
    ∀ (b : Block) {body : Bool} {c : TraceName}, b.survey (tracing ids) body c = [] → ∀ m,
      Marks ids file m (doBlock env map flatMap b) (b.doTraceSites env m map flatMap)
  | .missing, _, _, _, _ => .pure .nil
  | .mk t unique ss, _, _, h, m => by
    rw [doBlock_mk, Block.doTraceSites]
    refine .of_given fun hids => (registerPins_traces env unique).bind fun pins => ?_
    have hbody : Traces ids file
        (do
          let (body, rest, _) ← chain env map flatMap pins ss
          return bodyValue (rest.map Pin.stmt ++ body))
        fun e' => Pin.Apart pins → Noted ids file (e'.survey (tracing ids) m)
          (Stmt.chainTraceSites env map flatMap (m.within (Stmt.segment ss)) ss) := by
      have hchain := chain_traces env map flatMap ss h pins (m.within (Stmt.segment ss))
      refine hchain.finish fun r hr hpins => ?_
      rw [bodyValue_survey]
      exact (hr hpins).pinned hids (hr hpins).left
    dsimp only
    split
    · exact giveUp_traces.bind fun _ => hbody.mono fun e' he _ => he
    · exact hbody

/-- The statements of a Do body, if the name of trace parameters means `m` around them. -/
theorem chain_traces (env : Env) (map flatMap : Signature) :
    ∀ (ss : List Stmt) {c : TraceName}, Stmt.allSurvey (tracing ids) c ss = [] → ∀ pins m,
      Traces ids file (chain env map flatMap pins ss) fun r => Pin.Apart pins →
        ChainNoted ids file m ss (Stmt.chainTraceSites env map flatMap m ss) r
  | [], _, _, pins, m => .pure fun hpins => ⟨.nil, Iff.rfl, hpins, rfl⟩
  | s :: ss, _, h, pins, m => by
    obtain ⟨hs, hss⟩ := append_eq_nil_iff.1 h
    have hafter (hpins : Pin.Apart pins) := hpins.after s
    rw [chain, Stmt.chainTraceSites]
    refine .of_given fun hids => ?_
    generalize Pin.after pins s = split at hafter
    obtain ⟨now, later⟩ := split
    cases hlast : ss.isEmpty && s.isReturnBind with
    | true =>
      simp only [Bool.and_eq_true, List.isEmpty_iff] at hlast
      obtain ⟨rfl, hret⟩ := hlast
      simp only [chain, pure_bind, if_true]
      refine (bound_traces env s hs m).finish fun e he hpins => ?_
      refine ⟨?_, ?_, (hafter hpins).2, ?_⟩
      · simpa [Stmt.allSurvey, Stmt.returning, Stmt.survey] using he
      · simp [Stmt.returning, Stmt.scope, Stmt.lexical, Stmt.allHoisted, Stmt.hoisted, Stmt.segment,
          Stmt.endsSegment, hret]
      · simp [hasBind, hret]
    | false =>
      simp only [Bool.false_eq_true, if_false]
      cases hbind : s.isBind with
      | true =>
        have hchain := chain_traces env map flatMap ss hss later
          ((m.inside true none (s.boundName?.toList.map .ofIdent)).within (Stmt.segment ss))
        simp only [if_true]
        refine hchain.bind fun ⟨rest, left, settled⟩ => ?_
        refine (bound_traces env s hs m).bind fun effect => ?_
        refine (callExtension_traces env _ _ [] effect _ m).finish ?_
        intro step hstep heffect hrest hpins
        obtain ⟨hnow, hlater⟩ := hafter hpins
        have hr := hrest hlater
        have hsig : (if settled then map else flatMap) = if hasBind ss then flatMap else map := by
          rw [show settled = _ from hr.settled]
          cases hasBind ss <;> rfl
        have hnext := hr.pinned hids hnow
        rw [← continuation_survey] at hnext
        refine ⟨?_, ?_, hr.left, ?_⟩
        · have hcall := hstep _ (by simpa [Expr.allSurvey] using (hnext.append heffect).swap)
          rw [hsig, append_assoc] at hcall
          simpa [Stmt.allSurvey, Stmt.returning, Stmt.survey] using hcall
        · simp [Stmt.returning, Stmt.scope, Stmt.lexical, Stmt.allHoisted, Stmt.hoisted,
            Stmt.segment, Stmt.endsSegment, hbind]
        · simp [hasBind, hbind]
      | false =>
        simp only [Bool.false_eq_true, if_false]
        have hchain := chain_traces env map flatMap ss hss later m
        refine hchain.bind fun ⟨rest, left, settled⟩ => ?_
        refine ((stmt_traces env s hs m).fact
          (F := fun s' => Stmt.scope true [s'] = Stmt.scope true [s]) fun u =>
            stmts_scope env true [s] u).finish ?_
        rintro s' ⟨hscope, hs'⟩ hrest hpins
        obtain ⟨hnow, hlater⟩ := hafter hpins
        have hr := hrest hlater
        refine ⟨?_, ?_, hr.left, ?_⟩
        · rw [Stmt.allSurvey, Stmt.allSurvey_append, Pin.allSurvey_stmts hids, nil_append]
          exact hs'.append hr.noted
        · rw [Stmt.mem_scope_cons, Stmt.mem_scope_append, or_iff_right hnow.not_mem_scope, hscope,
            Stmt.segment, if_neg (by simp [Stmt.endsSegment, hlast, hbind]), mem_append]
          exact or_congr_right hr.scope
        · rw [hasBind, hlast, hbind]
          exact hr.settled

theorem bound_traces (env : Env) :
    ∀ (s : Stmt) {c : TraceName}, s.survey (tracing ids) c = [] → ∀ m,
      Marks ids file m (bound env s) (s.boundTraceSites env m)
  | .varDecl _ _ _ [.mk _ _ _ e], _, h, m =>
    boundArgument_traces env e (append_eq_nil_iff.1 h).1 m
  | .expr _ e, _, h, m | .ret _ e, _, h, m => boundArgument_traces env e h m
  | .varDecl _ _ _ [], _, _, _ | .varDecl _ _ _ (.mk .. :: _ :: _), _, _, _ | .missing, _, _, _
  | .block _, _, _, _ | .throw .., _, _, _ | .cond .., _, _, _ | .funcDecl .., _, _, _
  | .classDecl .., _, _, _ | .importDecl .., _, _, _ | .exportDecl .., _, _, _ => .pure .nil

theorem boundArgument_traces (env : Env) :
    ∀ (e : Expr) {c : TraceName}, e.survey (tracing ids) c = [] → ∀ m,
      Marks ids file m (boundArgument env e) (e.effectTraceSites env m) := by
  intro e c h m
  cases e with
  | call _ _ _ _ args => exact only_traces env args (append_eq_nil_iff.1 h).2 m
  | _ => exact .pure .nil

end

theorem file_traces (f : File) (h : Stmt.allSurvey (tracing ids) .free f.stmts = []) :
    Traces ids file (Lower.file env f) fun r =>
      Noted ids file (Stmt.allSurvey (tracing ids) .free r.1) (f.traceSites env) := by
  rw [Lower.file_eq]
  refine (registerPins_traces env f.unique).bind fun pins => ?_
  refine (stmts_traces env f.stmts h .free).bind fun ss => ?_
  refine .of_given fun hids => (placePins_traces pins ss).mono ?_
  rintro _ rfl hss _
  rwa [Pin.allSurvey_place hids]

end Lower

/-! ## Files -/

/-- The trace parameters that calls of a file refer to. -/
def File.traceParams (env : Env) (f : File) : List Ident :=
  (f.traceSites env).filterMap (·.near)

/-- The trace parameters are told from all other identifiers of a file, as those of a parsed file
are by their tokens, and no sum in it is a generated one. -/
structure File.TracesApart (env : Env) (f : File) : Prop where
  given : ∀ id ∈ f.traceParams env, id.IsGiven
  references : Stmt.allSurvey (tracing (f.traceParams env)) .free f.stmts = []
  imports : ∀ b ∈ f.stmts.filterMap Stmt.namespaceImport?, b.1 ∉ f.traceParams env

namespace Session

variable (session : Session) (f : File)

theorem start_clear {ids : List Ident} (hids : ∀ id ∈ ids, id.IsGiven)
    (h : ∀ b ∈ f.stmts.filterMap Stmt.namespaceImport?, b.1 ∉ ids) :
    (session.start f).Clear ids := by
  have hothers : (session.start f).others = [] :=
    (append_eq_nil_iff.1 (session.start_synthesized f)).2
  exact ⟨hids, fun e he => h _ (f.ledger_initial.permanent e he).2, by simp [hothers]⟩

/-- The notes on the walked statements are those for the calls of the file, whatever the variable of
the file is called as long as it has no name. -/
theorem walk_noted (hf : f.TracesApart (session.env f)) {file : Option Ident}
    (hfile : ∀ v, (session.walk f).2.traceVar = some v → file = some v) :
    (Stmt.allSurvey (tracing (f.traceParams (session.env f))) .free (session.walk f).1.1).Perm
      ((f.traceSites (session.env f)).map fun s => (s.argument file, s.meaning)) := by
  have hnoted := (Lower.file_traces (session.env f) f hf.references (session.start f)
    (session.start_clear f hf.given hf.imports)).2.2 hfile
  refine hnoted.trans (.of_eq ?_)
  rw [map_eq_flatMap]
  refine flatMap_congr fun s hs => ?_
  rw [TraceSite.notes, TraceSite.argument]
  cases hnear : s.near with
  | none => rfl
  | some id => exact if_pos (mem_filterMap.2 ⟨s, hs, hnear⟩)

/-- The variable of the file has a name if a call needs it. -/
theorem walk_traceVar (hf : f.TracesApart (session.env f)) {s : TraceSite}
    (hs : s ∈ f.traceSites (session.env f)) (hnear : s.near = none) :
    ∃ v, (session.walk f).2.traceVar = some v := by
  by_contra hnone
  have hfile (file : Option Ident) (v : Ident) (hv : (session.walk f).2.traceVar = some v) :
      file = some v := (hnone ⟨v, hv⟩).elim
  -- Then the notes would be the same for any two variables.
  have hperm := (session.walk_noted f hf (hfile none)).symm.trans
    (session.walk_noted f hf (hfile (some (.synthetic ""))))
  obtain ⟨s', -, heq⟩ := mem_map.1 (hperm.subset (mem_map_of_mem hs))
  have harg : s'.argument (some (.synthetic "")) = s.argument none := (Prod.mk.inj heq).1
  rw [TraceSite.argument, TraceSite.argument, hnear] at harg
  cases hnear' : s'.near <;> simp [hnear'] at harg

/-- Each call that takes a trace gets one: the trace parameter of the nearest function that has one,
or the variable of the file and the place of the call if there is none. There are no other traces.
The references mean the parameters that they should, in places where these have their values, just
when at each call that has such a function around it the name means this parameter, and the call is
not in a default value of the function. -/
theorem traces_usable_iff (hf : f.TracesApart (session.env f)) :
    let sites := f.traceSites (session.env f)
    let notes := Stmt.allSurvey (tracing (f.traceParams (session.env f))) .free (session.walk f).1.1
    notes.Perm (sites.map fun s => (s.argument (session.walk f).2.traceVar, s.meaning)) ∧
    (∀ s ∈ sites, s.near = none → ∃ v, (session.walk f).2.traceVar = some v) ∧
    (∀ out, (session.lower f).1 = .lowered out → ∃ body,
      moveDeclarations (session.walk f).2.names.aliases ((session.walk f).1.2.map Pin.stmt)
        (session.walk f).1.1 = some body ∧
      out.stmts = preamble (session.env f) (session.walk f).2 ++ body) ∧
    ((∀ n ∈ notes, ∀ id, n.1 = .parameter id → n.2 = .parameter id true) ↔
      ∀ s ∈ sites, s.Usable) := by
  intro sites notes
  have hperm : notes.Perm
      (sites.map fun s => (s.argument (session.walk f).2.traceVar, s.meaning)) :=
    session.walk_noted f hf fun v hv => hv
  refine ⟨hperm, fun s hs => session.walk_traceVar f hf hs, fun out => session.lower_eq f, ?_⟩
  simp only [hperm.mem_iff, List.forall_mem_map]
  refine forall₂_congr fun s _ => forall_congr' fun id => imp_congr_left ?_
  rw [TraceSite.argument]
  cases s.near <;> simp

/-- `__tsplusTrace` in some line, a trace parameter or another one. -/
def traceNamed (line : Int) : Ident :=
  { token := { kind := "IDENTIFIER", lexeme := traceParameter, line, column := 1 }
    name := traceParameter }

/-- `g()` in some line, a call that takes a trace. -/
def tracedCall (line : Int) : Expr :=
  .call { token := { kind := "CALL", lexeme := "g", line, column := 7 } }
    { formals := some [{ name := "trace", trace := true }] } (.ident { name := "g" }) [] []

/-- `function f(__tsplusTrace) { return () => g(); }` and `g();` -/
def tracedFile : File :=
  { stmts :=
      [.funcDecl {} false (some { name := "f" }) [.ofIdent (traceNamed 1)] .missing
        (.mk {} [] [.ret {} (.arrow {} [] .missing (tracedCall 2))]),
        .expr {} (tracedCall 4)] }

/-- The trace inside the function is its parameter, and the other one is the place in the file. -/
theorem traces_usable_iff_nested : tracedFile.TracesApart { compilation := {} } ∧
    tracedFile.traceSites { compilation := {} } =
      [⟨some (traceNamed 1), (tracedCall 2).token, .parameter (traceNamed 1) true⟩,
        ⟨none, (tracedCall 4).token, .free⟩] ∧
    (Stmt.allSurvey (tracing [traceNamed 1]) .free
        (({ compilation := {} } : Session).walk tracedFile).1.1).Perm
      [(.parameter (traceNamed 1), .parameter (traceNamed 1) true),
        (.place (some { Ident.synthetic "fileName_1" with mark := some 0 }) (some ":4:7"),
          .free)] ∧
    ∀ n ∈ Stmt.allSurvey (tracing [traceNamed 1]) .free
        (({ compilation := {} } : Session).walk tracedFile).1.1,
      ∀ id, n.1 = .parameter id → n.2 = .parameter id true := by
  have hsites : tracedFile.traceSites { compilation := {} } =
      [⟨some (traceNamed 1), (tracedCall 2).token, .parameter (traceNamed 1) true⟩,
        ⟨none, (tracedCall 4).token, .free⟩] := by decide +kernel
  have hparams : tracedFile.traceParams { compilation := {} } = [traceNamed 1] := by
    rw [File.traceParams, hsites]
    rfl
  have hapart : tracedFile.TracesApart { compilation := {} } := by
    refine ⟨?_, ?_, by simp [tracedFile, Stmt.namespaceImport?]⟩
    · rw [hparams]
      simp [Ident.IsGiven, traceNamed, Token.synthetic]
    · rw [hparams]
      decide +kernel
  have hall := traces_usable_iff { compilation := {} } tracedFile hapart
  have henv : ({ compilation := {} } : Session).env tracedFile = { compilation := {} } := rfl
  rw [henv, hparams, hsites] at hall
  refine ⟨hapart, hsites, ?_, hall.2.2.2.2 ?_⟩
  · refine hall.1.trans (.of_eq ?_)
    rfl
  · simp [TraceSite.Usable]

/-- `function f(x = g(), __tsplusTrace) { return x; }` -/
def tracedDefault : File :=
  { stmts :=
      [.funcDecl {} false (some { name := "f" })
        [.mk {} (some { name := "x" }) .missing false false (tracedCall 3), .ofIdent (traceNamed 1)]
        .missing (.mk {} [] [.ret {} (.ident { name := "x" })])] }

/-- `function f(__tsplusTrace) { return (__tsplusTrace, x) => g(); }` -/
def tracedShadow : File :=
  { stmts :=
      [.funcDecl {} false (some { name := "f" }) [.ofIdent (traceNamed 1)] .missing
        (.mk {} [] [.ret {} (.arrow {} [.ofIdent (traceNamed 2), .ofIdent { name := "x" }] .missing
          (tracedCall 3))])] }

/-- In a default value the trace is a parameter without a value, and where another parameter has the
name it is not the trace parameter. -/
theorem trace_parameter_unusable :
    (({ compilation := {} } : Session).lower tracedDefault).1 = .lowered { stmts :=
      [.funcDecl {} false (some { name := "f" })
        [.mk {} (some { name := "x" }) .missing false false
            (.call { token := (tracedCall 3).token }
              { formals := some [{ name := "trace", trace := true }] } (.ident { name := "g" }) []
              [.ident (traceNamed 1)]),
          .ofIdent (traceNamed 1)]
        .missing (.mk {} [] [.ret {} (.ident { name := "x" })])] } ∧
    Stmt.allSurvey (tracing [traceNamed 1]) .free
        (({ compilation := {} } : Session).walk tracedDefault).1.1 =
      [(.parameter (traceNamed 1), .parameter (traceNamed 1) false)] ∧
    Stmt.allSurvey (tracing [traceNamed 1]) .free
        (({ compilation := {} } : Session).walk tracedShadow).1.1 =
      [(.parameter (traceNamed 1), .other)] :=
  ⟨by rfl, by rfl, by rfl⟩

end Session

end ExtensionLowering
