import ExtensionLowering.Proofs.Lowering.Arguments
import ExtensionLowering.Proofs.Lowering.Laziness
/-!
# Two ways to a data-first call

A call with a data-first variant is fused where it is a stage of a pipe and where it is called
itself. Both times the variant is called with the value in front of the arguments. A pipe lowers the
value first and passes all as it is lowered; the curried call lowers the value last and passes what
it would have passed before it was fused.
-/
namespace ExtensionLowering

/-- No renaming makes an expression the function that returns it. -/
theorem Expr.arrow_ne_mapIdents (r r' : Ident → Ident) (e : Expr) (i : Info) (ps : List Param)
    (b : Block) : .arrow i ps b (e.mapIdents r) ≠ e.mapIdents r' := by
  intro h
  cases e with
  | arrow i' ps' b' e =>
    rw [Expr.mapIdents, Expr.mapIdents, Expr.arrow.injEq] at h
    exact e.arrow_ne_mapIdents r r' _ _ _ h.2.2.2
  | _ => cases h

namespace Lower

open List

variable {env : Env} {target : Target} {g : CallFacts} {args : List Expr} {ts ts' : List TypeRef}
variable (token token' : Token)

/-- What is passed for the parameters behind the arguments. -/
def fillings (env : Env) (token : Token) (facts : CallFacts) (args : List Expr) :
    List (Lower Expr) :=
  let ps := if args.any (·.isSpread) then [] else (facts.formals.getD []).drop args.length
  (List.range (extent ps)).map (slot env token ps)

/-- The expressions, each delayed if it was lazy before it was lowered. -/
def delays (es lowered : List Expr) : List Expr :=
  es.zipWith (fun e => thunkIf e.lazy) lowered

theorem delays_cons (e e' : Expr) (es out : List Expr) :
    delays (e :: es) (e' :: out) = thunkIf e.lazy e' :: delays es out := rfl

theorem arguments_eq_delays (env : Env) (es : List Expr) :
    arguments env es = delays es <$> exprs env es := by
  induction es with
  | nil => rfl
  | cons e es ih => simp [arguments, exprs, ih, delays]

theorem complete_eq_fillings (env : Env) (token : Token) (g : CallFacts)
    (args lowered : List Expr) :
    complete env token g args lowered =
      (lowered ++ ·) <$> (fillings env token g args).mapM id := by
  rw [complete, fillings, List.mapM_map]
  cases g.formals <;> by_cases hspread : args.any (·.isSpread) <;>
    simp [hspread, extent, fill_eq]

theorem fillings_eq_nil_iff (token : Token) :
    fillings env token g args = [] ↔
      args.any (·.isSpread) ∨ ∀ j ≥ args.length, ¬ isFilled (g.formals.getD []) j := by
  have hextent := @lt_add_extent_iff (g.formals.getD []) args.length _ (Nat.le_refl _)
  by_cases hspread : args.any (·.isSpread)
  · simp [fillings, hspread, extent]
  · simp [fillings, hspread]
    grind

theorem length_exprs (env : Env) (es : List Expr) (u : Lowering) :
    ((exprs env es).run u).1.length = es.length := by
  induction es generalizing u with
  | nil => rfl
  | cons e es ih => exact congrArg (· + 1) (ih _)

theorem length_mapM_id (acts : List (Lower Expr)) (u : Lowering) :
    ((acts.mapM id).run u).1.length = acts.length := by
  induction acts generalizing u with
  | nil => rfl
  | cons op acts ih =>
    rw [mapM_cons]
    exact congrArg (· + 1) (ih _)

/-- The reference to a declaration is the same wherever an error would be reported. -/
theorem targetReference_fst (u : Lowering) :
    ((targetReference env target token).run u).1 =
      ((targetReference env target token').run u).1 := by
  unfold targetReference reference
  split
  · rfl
  · split
    · rfl
    · split <;> rfl

theorem delays_of_eager {es out : List Expr} (h : ∀ e ∈ es, e.lazy = false)
    (hlength : out.length = es.length) : delays es out = out := by
  induction es generalizing out with
  | nil =>
    rw [length_eq_zero_iff.1 hlength]
    rfl
  | cons e es ih =>
    obtain ⟨e', out, rfl⟩ := exists_cons_of_length_eq_add_one hlength
    obtain ⟨he, hes⟩ := forall_mem_cons.1 h
    rw [delays_cons, he, ih hes (Nat.succ.inj hlength)]
    rfl

/-- What is delayed is not the same under any names. -/
theorem eager_of_delays {es out : List Expr} (r r' : Ident → Ident)
    (hlength : out.length = es.length)
    (h : Expr.mapAll r (delays es out) = Expr.mapAll r' out) : ∀ e ∈ es, e.lazy = false := by
  induction es generalizing out with
  | nil => exact fun _ he => nomatch he
  | cons e es ih =>
    obtain ⟨e', out, rfl⟩ := exists_cons_of_length_eq_add_one hlength
    rw [delays_cons] at h
    obtain ⟨he, hes⟩ := cons.inj h
    refine forall_mem_cons.2 ⟨?_, ih (Nat.succ.inj hlength) hes⟩
    cases hlazy : e.lazy with
    | false => rfl
    | true =>
      rw [hlazy] at he
      exact absurd he (e'.arrow_ne_mapIdents r r' _ _ _)

/-- What a pipe makes of a value and a stage with these arguments. -/
def piped (env : Env) (target : Target) (token : Token) (x : Expr) (args : List Expr) :
    Lower Expr := do
  let value ← expr env x
  let lowered ← exprs env args
  return (← targetReference env target token).apply (value :: lowered)

/-- What becomes of the call `f(args)(x)`, with the tokens of its two calls. -/
def curried (env : Env) (target : Target) (token token' : Token) (g : CallFacts) (f : Expr)
    (args : List Expr) (x : Expr) : Lower Expr := do
  let f' ← expr env f
  let lowered ← exprs env args
  let filled ← (fillings env token g args).mapM id
  let value ← expr env x
  let fn ← targetReference env target token'
  retract env f'
  return fn.apply (delays (x :: args) (value :: lowered) ++ filled)

/-- The value and the arguments can be lowered in either order. -/
def Commutes (env : Env) (x : Expr) (args : List Expr) (u : Lowering) : Prop :=
  (do let value ← expr env x; return (value, ← exprs env args) : Lower _).run u =
    (do let lowered ← exprs env args; return (← expr env x, lowered) : Lower _).run u

theorem piped_eq {i j : Info} {facts : CallFacts} {callee f x : Expr}
    (hdata : g.dataFirst = some target)
    (hpipe : callRoute env.compilation facts callee [x, .call j g f ts args] = .pipe) :
    expr env (.call i facts callee ts' [x, .call j g f ts args]) =
      piped env target j.token x args := by
  rw [expr, hpipe, stagesOf]
  simp [stages, Expr.dataFirst?, hdata, callArguments, Expr.token, dataFirstCall, piped]

theorem curried_eq {j k : Info} {h : CallFacts} {f x : Expr}
    (hdata : g.dataFirst = some target) (hplain : callRoute env.compilation g f args = .plain)
    (hcurried : h.intrinsic = none) :
    expr env (.call k h (.call j g f ts args) ts' [x]) =
      curried env target j.token k.token g f args x := by
  have hfuse : callRoute env.compilation h (.call j g f ts args) [x] = .fuse target := by
    simp [callRoute, ordinaryRoute, Expr.isSuper, Expr.dataFirst?, hcurried, hdata]
  have hkept : (Expr.call j g f ts args).isKept env.compilation = true := by
    simp [Expr.isKept, hplain]
  have hstage := expr_kept env j g f ts args (c := expr env f) (by rw [hplain]; rfl)
  rw [expr, hfuse]
  simp [hkept, hstage, arguments_eq_delays, complete_eq_fillings, exprs, delays, dataFirstCall,
    curried]

/-- From a state in which the order does not matter, both call the same with the same arguments
exactly if nothing is lazy and nothing is filled in. -/
theorem curried_agrees_iff (target : Target) (g : CallFacts) {f x : Expr} {u : Lowering}
    (hf : ((expr env f).run u).2 = u) (hcomm : Commutes env x args u) (r r' : Ident → Ident) :
    let a := ((curried env target token token' g f args x).run u).1
    let b := ((piped env target token x args).run u).1
    let same := (∀ e ∈ x :: args, e.lazy = false) ∧ fillings env token g args = []
    (same → a = b) ∧ (a.mapIdents r = b.mapIdents r' → same) := by
  intro a b same
  let lowered := (exprs env args).run u
  let filled := ((fillings env token g args).mapM id).run lowered.2
  let value := (expr env x).run filled.2
  let first := (expr env x).run u
  let second := (exprs env args).run first.2
  have ha : a = ((targetReference env target token).run value.2).1.apply
      (delays (x :: args) (value.1 :: lowered.1) ++ filled.1) := by
    simp only [value, filled, lowered, targetReference_fst token token']
    conv_rhs => rw [← hf]
    rfl
  have hb : b = ((targetReference env target token).run second.2).1.apply (first.1 :: second.1) :=
    rfl
  have hsame (h : fillings env token g args = []) : filled.1 = [] ∧
      b = ((targetReference env target token).run value.2).1.apply (value.1 :: lowered.1) := by
    have hfilled : filled = ([], lowered.2) := by simp only [filled, h]; rfl
    have horder : ((first.1, second.1), second.2) = ((value.1, lowered.1), value.2) := by
      simp only [value, hfilled]
      exact hcomm
    obtain ⟨⟨hfirst, hsecond⟩, hstate⟩ := by simpa using horder
    rw [hb, hfirst, hsecond, hstate, hfilled]
    exact ⟨rfl, rfl⟩
  refine ⟨fun ⟨heager, hnone⟩ => ?_, fun h => ?_⟩
  · obtain ⟨hfilled, hb⟩ := hsame hnone
    rw [ha, hb, hfilled, append_nil, delays_of_eager heager (by simp [lowered, length_exprs])]
  · have hargs {fn : Expr} {out : List Expr} (hb : b = fn.apply out) :
        Expr.mapAll r (delays (x :: args) (value.1 :: lowered.1) ++ filled.1) =
          Expr.mapAll r' out := by
      rw [ha, hb] at h
      exact (Expr.call.inj h).2.2.2.2
    have hcount := congrArg length (hargs hb)
    have hnone : fillings env token g args = [] := by
      rw [← length_eq_zero_iff, ← length_mapM_id _ lowered.2]
      simp [Expr.mapAll_eq_map, delays, lowered, second, length_exprs] at hcount
      exact congrArg length hcount
    obtain ⟨hfilled, hb⟩ := hsame hnone
    have hdelays := hargs hb
    rw [hfilled, append_nil] at hdelays
    exact ⟨eager_of_delays r r' (by simp [lowered, length_exprs]) hdelays, hnone⟩

/-- A pipe lowers the value and then the arguments of the stage, and passes them as they are. Where
the stage is called itself, its own callee comes first and the value last, each is delayed if it is
lazy, and what the parameters ask for stands behind. Where the callee leaves the state alone and it
does not matter which of the value and the arguments is lowered first, the calls are the same
exactly if nothing is lazy and nothing is filled in; otherwise they are not the same under any
names. -/
theorem fusions_agree_iff (env : Env) (target : Target) (i j k : Info) (facts g h : CallFacts)
    (callee f x : Expr) (ts ts' ts'' : List TypeRef) (args : List Expr)
    (hdata : g.dataFirst = some target) (hplain : callRoute env.compilation g f args = .plain)
    (hpipe : callRoute env.compilation facts callee [x, .call j g f ts args] = .pipe)
    (hcurried : h.intrinsic = none) :
    let pipe := expr env (.call i facts callee ts' [x, .call j g f ts args])
    let call := expr env (.call k h (.call j g f ts args) ts'' [x])
    pipe = piped env target j.token x args ∧
    call = curried env target j.token k.token g f args x ∧
    ∀ u, ((expr env f).run u).2 = u → Commutes env x args u →
      let same := (∀ e ∈ x :: args, e.lazy = false) ∧
        (args.any (·.isSpread) ∨ ∀ j ≥ args.length, ¬ isFilled (g.formals.getD []) j)
      ((call.run u).1 = (pipe.run u).1 ↔ same) ∧
        ((∃ r r' : Ident → Ident, (call.run u).1.mapIdents r = (pipe.run u).1.mapIdents r') ↔
          same) := by
  intro pipe call
  have hpiped : pipe = piped env target j.token x args := piped_eq hdata hpipe
  have hcall : call = curried env target j.token k.token g f args x :=
    curried_eq hdata hplain hcurried
  refine ⟨hpiped, hcall, fun u hf hcomm => ?_⟩
  rw [hpiped, hcall, ← fillings_eq_nil_iff j.token]
  have hagree := curried_agrees_iff j.token k.token target g hf hcomm
  exact ⟨⟨fun h => (hagree id id).2 (congrArg _ h), (hagree id id).1⟩,
    fun ⟨r, r', h⟩ => (hagree r r').2 h, fun h => ⟨id, id, congrArg _ ((hagree id id).1 h)⟩⟩

/-- `map(compute())`, which has a data-first variant. -/
def mapStage : Expr :=
  .call {} { dataFirst := some { exportName := "mapDataFirst" } } (.ofName "map") []
    [Session.delayed]

theorem fusions_agree_iff_mapStage :
    let env : Env := { compilation := {} }
    let pipe : CallFacts := { intrinsic := some .pipe }
    let u : Lowering := { names := .begin {} }
    callRoute {} pipe (.ofName "pipe") [.ofName "x", mapStage] = .pipe ∧ mapStage.isKept {} ∧
      ((expr env (.ofName "map")).run u).2 = u ∧ Commutes env (.ofName "x") [Session.delayed] u ∧
      ∀ r r' : Ident → Ident,
        ((expr env (.call {} {} mapStage [] [.ofName "x"])).run u).1.mapIdents r ≠
          ((expr env (.call {} pipe (.ofName "pipe") [] [.ofName "x", mapStage])).run
            u).1.mapIdents r' := by
  refine ⟨rfl, rfl, rfl, rfl, fun r r' h => ?_⟩
  have hlazy := (((fusions_agree_iff { compilation := {} } { exportName := "mapDataFirst" } {} {} {}
    { intrinsic := some .pipe } { dataFirst := some { exportName := "mapDataFirst" } } {}
    (.ofName "pipe") (.ofName "map") (.ofName "x") [] [] [] [Session.delayed]
    rfl rfl rfl rfl).2.2 _ rfl rfl).2.1 ⟨r, r', h⟩).1 Session.delayed (by simp)
  cases hlazy

/-- In `pipe(x, map(compute()))` a lazy argument is passed as it is, in `map(compute())(x)` as a
function. -/
theorem stage_argument_undelayed :
    let call (e : Expr) : Stmt := .expr {} ((Expr.ofName "mapDataFirst").apply [.ofName "x", e])
    (({ compilation := {} } : Session).lower { stmts :=
        [.expr {} (.call {} { intrinsic := some .pipe } (.ofName "pipe") []
          [.ofName "x", mapStage]),
         .expr {} (.call {} {} mapStage [] [.ofName "x"])] }).1 =
      .lowered { stmts := [call Session.delayed, call Session.delayed.thunk] } := by
  rfl

end Lower

end ExtensionLowering
