import ExtensionLowering.Proofs.Lowering.Route
import ExtensionLowering.Proofs.Lowering.Walk
/-!
# Do blocks, read forward

A Do block is lowered from its last statement to its first, with the statements lowered so far as
the continuation of the next bind. Here its statements are read forward: each is a bind, the
returned effect at the end or any other statement. The parts are lowered one by one, and the chain
of effects is put together from them by a recursion that knows no state. The two agree.

## Main definitions

* `DoItem.read` — what the statements of a body are for the chain of effects.
* `Lower.parts` — the lowered parts of a body, one for each statement.
* `DoPart.low` — the statements that a list of parts stands for.

## Main statements

* `Lower.do_call_forward` — a Do call is lowered to the forward reading of its body.
-/
namespace ExtensionLowering

open List

variable {args : List Expr} {map flatMap : Signature}

/-- The effect that a flagged call with one argument binds. -/
def Expr.effect? : Expr → Option Expr
  | .call _ facts _ _ [e] => if facts.bind then some e else none
  | _ => none

/-- The expression in which a statement may bind an effect, and the name that it is bound to. -/
def Stmt.binding? : Stmt → Option (Option Ident × Expr)
  | .varDecl _ _ _ [.mk _ name _ init] => some (name, init)
  | .expr _ e => some (none, e)
  | _ => none

/-- What a statement of a Do body is for the chain of effects. -/
inductive DoItem where
  /-- An effect is bound to a name or to none. -/
  | bind (name : Option Ident) (token : Token) (effect : Expr)
  /-- An effect is returned at the end. -/
  | result (effect : Expr)
  | plain (s : Stmt)

namespace DoItem

def isPlain : DoItem → Bool
  | .plain _ => true
  | _ => false

@[simp] theorem isPlain_plain (s : Stmt) : (plain s).isPlain = true := rfl

@[simp] theorem isPlain_result (e : Expr) : (result e).isPlain = false := rfl

@[simp] theorem isPlain_bind (name : Option Ident) (token : Token) (e : Expr) :
    (bind name token e).isPlain = false := rfl

/-- A statement that is not a return at the end. -/
def ofStmt (s : Stmt) : DoItem :=
  match s.binding? with
  | none => .plain s
  | some (name, e) => e.effect?.elim (.plain s) (.bind name e.token)

/-- The last statement. -/
def ofLast : Stmt → DoItem
  | .ret token e => e.effect?.elim (.plain (.ret token e)) .result
  | s => ofStmt s

/-- The statements of a body, in their order. -/
def read : List Stmt → List DoItem
  | [] => []
  | s :: ss => (if ss.isEmpty then ofLast s else ofStmt s) :: read ss

end DoItem

/-- A call of `map` or `flatMap` but for the continuation. -/
structure DoStep where
  fn : Expr
  pipeable : Bool
  effect : Expr
  trace : Option Expr

/-- `fn(next, trace)(effect)` for a pipeable extension, `fn(effect, next, trace)` otherwise. -/
def DoStep.call (step : DoStep) (next : Expr) : Expr :=
  if step.pipeable then (step.fn.apply (next :: step.trace.toList)).apply [step.effect]
  else step.fn.apply (step.effect :: next :: step.trace.toList)

/-- A lowered item. -/
inductive DoPart where
  | bind (name : Option Ident) (step : DoStep)
  | result (effect : Expr)
  | plain (s : Stmt)

/-- The statements that parts stand for. What follows a bind is the body of its continuation. -/
def DoPart.low : List DoPart → List Stmt
  | [] => []
  | .plain s :: rest => s :: low rest
  | .result e :: rest => .returning e :: low rest
  | .bind name step :: rest => [.returning (step.call (continuation name.toList (low rest)))]

namespace Lower

def step (env : Env) (s : Signature) (token : Token) (e : Expr) : Lower DoStep := do
  let effect ← expr env e
  let fn ← extensionReference env s token
  let trace ← if s.trace then some <$> trace env token else pure none
  return { fn, pipeable := s.pipeable, effect, trace }

def part (env : Env) (s : Signature) : DoItem → Lower DoPart
  | .bind name token e => return .bind name (← step env s token e)
  | .result e => return .result (← expr env e)
  | .plain s => return .plain (← stmt env s)

/-- Lowers the items of a body, the last one first. A bind is a step of `map` when no effect follows
it, and of `flatMap` otherwise. -/
def parts (env : Env) (map flatMap : Signature) : List DoItem → Lower (List DoPart)
  | [] => return []
  | item :: items => do
    let rest ← parts env map flatMap items
    return (← part env (if items.all (·.isPlain) then map else flatMap) item) :: rest

end Lower

/-! ## Reading statements -/

theorem Expr.isBind_iff {e : Expr} :
    e.isBind ↔ ∃ i facts callee ts arg, e = .call i facts callee ts [arg] ∧ facts.bind := by
  constructor
  · intro h
    unfold Expr.isBind at h
    split at h
    · exact ⟨_, _, _, _, _, rfl, h⟩
    · cases h
  · rintro ⟨i, facts, callee, ts, arg, rfl, h⟩
    exact h

theorem Expr.effect?_eq_none {e : Expr} (h : ¬ e.isBind) : e.effect? = none := by
  unfold Expr.effect?
  split
  · exact if_neg h
  · rfl

namespace DoItem

variable {s : Stmt} (pins : List Pin)

theorem ofStmt_of_isBind (h : s.isBind) :
    ∃ e, ofStmt s = .bind s.boundName? s.boundExpr.token e ∧
      ∀ env, Lower.bound env s = Lower.expr env e := by
  unfold Stmt.isBind at h
  split at h
  · obtain ⟨i, facts, callee, ts, arg, rfl, hbind⟩ := Expr.isBind_iff.1 h
    refine ⟨arg, ?_, fun env => by
      simp only [Lower.bound, Lower.boundInit, Lower.boundArgument, Lower.only]⟩
    simp [ofStmt, Stmt.binding?, Expr.effect?, hbind, Stmt.boundName?, Stmt.boundExpr]
  · obtain ⟨i, facts, callee, ts, arg, rfl, hbind⟩ := Expr.isBind_iff.1 h
    refine ⟨arg, ?_, fun env => by simp only [Lower.bound, Lower.boundArgument, Lower.only]⟩
    simp [ofStmt, Stmt.binding?, Expr.effect?, hbind, Stmt.boundName?, Stmt.boundExpr]
  · cases h

theorem ofStmt_of_not_isBind (h : ¬ s.isBind) : ofStmt s = .plain s := by
  unfold ofStmt Stmt.binding?
  unfold Stmt.isBind at h
  split
  · rfl
  · rename_i heq
    split at heq
    · cases heq
      rw [Expr.effect?_eq_none h]
      rfl
    · cases heq
      rw [Expr.effect?_eq_none h]
      rfl
    · cases heq

theorem ofLast_of_isReturnBind (h : s.isReturnBind) :
    ∃ e, ofLast s = .result e ∧ ∀ env, Lower.bound env s = Lower.expr env e := by
  cases s with
  | ret token value =>
    obtain ⟨i, facts, callee, ts, arg, rfl, hbind⟩ := Expr.isBind_iff.1 h
    refine ⟨arg, ?_, fun env => by simp only [Lower.bound, Lower.boundArgument, Lower.only]⟩
    simp [ofLast, Expr.effect?, hbind]
  | _ => cases h

theorem ofLast_of_not_isReturnBind (h : ¬ s.isReturnBind) : ofLast s = ofStmt s := by
  unfold ofLast
  split
  · rw [Expr.effect?_eq_none h]
    rfl
  · rfl

theorem read_cons {ss : List Stmt} (h : ¬ (ss.isEmpty && s.isReturnBind)) :
    read (s :: ss) = ofStmt s :: read ss := by
  rw [read]
  split
  · rw [ofLast_of_not_isReturnBind (by simp_all)]
  · rfl

/-- Pinned copies are read as they are. -/
theorem read_pins (ss : List Stmt) :
    read (pins.map Pin.stmt ++ ss) = pins.map (.plain ·.stmt) ++ read ss := by
  induction pins with
  | nil => rfl
  | cons p pins ih =>
    have hplain : ofStmt p.stmt = .plain p.stmt := ofStmt_of_not_isBind (by
      simp [Pin.stmt, Stmt.constant, Stmt.isBind, Expr.ofName, Expr.ofIdent, Expr.isBind])
    have hret : ¬ p.stmt.isReturnBind := by simp [Pin.stmt, Stmt.constant, Stmt.isReturnBind]
    rw [map_cons, cons_append, read_cons (by simp [hret]), ih, hplain]
    rfl

theorem all_pins (items : List DoItem) :
    (pins.map (DoItem.plain ·.stmt) ++ items).all (·.isPlain) = items.all (·.isPlain) := by
  rw [all_append, all_map]
  simp [Function.comp_def]

/-- Placing pins puts them behind the statement they stand after; the statement itself is read as it
was. -/
theorem read_place {ss : List Stmt} (h : ¬ (ss.isEmpty && s.isReturnBind)) :
    read (Pin.place pins (s :: ss)).1 =
      ofStmt s :: ((Pin.after pins s).1.map (.plain ·.stmt) ++
        read (Pin.place (Pin.after pins s).2 ss).1) := by
  have hplace : (Pin.place pins (s :: ss)).1 =
      s :: ((Pin.after pins s).1.map Pin.stmt ++ (Pin.place (Pin.after pins s).2 ss).1) := rfl
  rw [hplace, read_cons, read_pins]
  intro hlast
  refine h ?_
  cases ss with
  | nil => simp_all
  | cons s' ss => simp [Pin.place] at hlast

end DoItem

namespace DoPart

theorem low_pins (pins : List Pin) (parts : List DoPart) :
    low (pins.map (.plain ·.stmt) ++ parts) = pins.map Pin.stmt ++ low parts := by
  induction pins with
  | nil => rfl
  | cons p pins ih => exact congrArg (p.stmt :: ·) ih

end DoPart

namespace Lower

variable (env : Env) (map flatMap : Signature)

theorem stmt_pin (p : Pin) : stmt env p.stmt = pure p.stmt := by
  simp only [Pin.stmt, Stmt.constant, stmt, declarators, declarator, Expr.ofName, Expr.ofIdent,
    expr, name, Ident.synthetic, pure_bind]

theorem parts_pins (pins : List Pin) (items : List DoItem) :
    parts env map flatMap (pins.map (.plain ·.stmt) ++ items) =
      (pins.map (.plain ·.stmt) ++ ·) <$> parts env map flatMap items := by
  induction pins with
  | nil => exact (id_map _).symm
  | cons p pins ih =>
    rw [map_cons, cons_append, parts, ih]
    simp only [part, stmt_pin, pure_bind, map_eq_pure_bind, bind_assoc]
    rfl

theorem parts_cons_pins (item : DoItem) (pins : List Pin) (items : List DoItem) :
    parts env map flatMap (item :: (pins.map (.plain ·.stmt) ++ items)) = do
      let rest ← parts env map flatMap items
      let first ← part env (if items.all (·.isPlain) then map else flatMap) item
      return first :: (pins.map (.plain ·.stmt) ++ rest) := by
  rw [parts, parts_pins, DoItem.all_pins]
  simp only [map_eq_pure_bind, bind_assoc, pure_bind]

theorem callExtension_step (s : Signature) (token : Token) (e next : Expr) :
    (do let effect ← expr env e; callExtension env s token [] effect [next]) =
      (·.call next) <$> step env s token e := by
  simp only [step, callExtension, map_bind]
  refine bind_congr fun effect => bind_congr fun fn => ?_
  rw [withTrace]
  split <;> simp only [map_eq_pure_bind, bind_assoc, pure_bind] <;> rfl

/-- Lowering from the last statement to the first gives the forward reading of the statements with
their pins in place. -/
theorem chain_eq (ss : List Stmt) (pins : List Pin) :
    chain env map flatMap pins ss = do
      let items := DoItem.read (Pin.place pins ss).1
      let parts ← parts env map flatMap items
      return (DoPart.low parts, (Pin.place pins ss).2, items.all (·.isPlain)) := by
  induction ss generalizing pins with
  | nil => rfl
  | cons s ss ih =>
    rw [chain]
    dsimp only
    rw [ih]
    by_cases hlast : ss.isEmpty && s.isReturnBind
    · -- A return takes no pins, so it stays the last statement.
      simp only [Bool.and_eq_true, List.isEmpty_iff] at hlast
      obtain ⟨rfl, hret⟩ := hlast
      obtain ⟨e, hitem, hbound⟩ := DoItem.ofLast_of_isReturnBind hret
      simp [Pin.place, Pin.after_isReturnBind pins hret, hret, hbound, DoItem.read, hitem, parts,
        part, DoPart.low]
    · have hleft : (Pin.place pins (s :: ss)).2 = (Pin.place (Pin.after pins s).2 ss).2 := rfl
      simp only [DoItem.read_place pins hlast, hleft, parts_cons_pins, if_neg hlast, bind_assoc,
        pure_bind]
      refine bind_congr fun rest => ?_
      by_cases hbind : s.isBind
      · obtain ⟨e, hitem, hbound⟩ := DoItem.ofStmt_of_isBind hbind
        simp only [if_pos hbind, hitem, hbound, part, ← bind_assoc (expr env e), callExtension_step]
        simp only [map_eq_pure_bind, bind_assoc, pure_bind, DoPart.low, DoPart.low_pins,
          all_cons, DoItem.isPlain_bind, Bool.false_and]
      · simp only [if_neg hbind, DoItem.ofStmt_of_not_isBind hbind, part, bind_assoc, pure_bind,
          DoPart.low, DoPart.low_pins, all_cons, DoItem.isPlain_plain, Bool.true_and,
          DoItem.all_pins]

theorem doBlock_eq (token : Token) (unique : List DeclId) (ss : List Stmt) :
    doBlock env map flatMap (.mk token unique ss) = do
      let pins ← registerPins env unique
      let ss ← insertPins pins ss
      let parts ← parts env map flatMap (DoItem.read ss)
      return bodyValue (DoPart.low parts) := by
  rw [doBlock_mk]
  refine bind_congr fun pins => ?_
  dsimp only
  rw [insertPins, placePins]
  dsimp only
  split <;>
    simp only [chain_eq, DoItem.read_pins, parts_pins, DoPart.low_pins, map_eq_pure_bind,
      bind_assoc, pure_bind]

end Lower

/-! ## Calls of Do -/

theorem fluentRoute_ne_chain (c : Compilation) (facts : CallFacts) (callee : Expr)
    (args : List Expr) (map flatMap : Signature) :
    fluentRoute c facts callee args ≠ .chain map flatMap := by
  unfold fluentRoute
  dsimp only
  repeat' split
  all_goals exact CallRoute.noConfusion

theorem isDoBody_length (h : isDoBody args) : args.length = 1 := by
  unfold isDoBody at h
  split at h
  · rfl
  · cases h

theorem ordinaryRoute_eq_chain_iff {c : Compilation} {facts : CallFacts} {callee : Expr} :
    ordinaryRoute c facts callee args = .chain map flatMap ↔
      isDoBody args ∧ callee.dataFirst? = none ∧ facts.doBlock = some ⟨some map, some flatMap⟩ := by
  constructor
  · intro h
    unfold ordinaryRoute at h
    split at h
    · cases h
    · rename_i hcallee
      split at h
      · rename_i hdo
        split at hdo
        · rename_i hbody
          rw [if_pos (isDoBody_length hbody)] at hcallee
          obtain ⟨rfl, rfl⟩ := CallRoute.chain.inj h
          exact ⟨hbody, hcallee, hdo⟩
        · cases hdo
      · split at h
        · cases h
        · split at h
          · exact absurd h (fluentRoute_ne_chain c facts callee args map flatMap)
          · cases h
  · rintro ⟨hbody, hcallee, hdo⟩
    simp [ordinaryRoute, isDoBody_length hbody, hcallee, hbody, hdo]

/-- A call is lowered as a Do block when nothing else is known of it or of its callee, its only
argument is an arrow function whose block binds an effect and both extensions are known. -/
theorem callRoute_eq_chain_iff {c : Compilation} {facts : CallFacts} {callee : Expr} :
    callRoute c facts callee args = .chain map flatMap ↔
      ¬ callee.isSuper ∧ facts.intrinsic = none ∧ isDoBody args ∧ callee.dataFirst? = none ∧
        facts.doBlock = some ⟨some map, some flatMap⟩ := by
  unfold callRoute
  by_cases hsuper : callee.isSuper
  · simp [hsuper]
  · rw [if_neg hsuper]
    cases hmeaning : facts.intrinsic with
    | none => simp [ordinaryRoute_eq_chain_iff, hsuper]
    | some intrinsic =>
      cases intrinsic with
      | pipe =>
        cases args with
        | nil => simp [ordinaryRoute_eq_chain_iff, isDoBody]
        | cons e es => simp
      | identity =>
        dsimp only
        repeat' split
        all_goals simp
      | remove | derive => simp

/-- A body that is a single return is the result of its continuation and the value of the block;
any other body stays a block. -/
theorem collapse (params : List Ident) (body : List Stmt) :
    (∃ token v, body = [.ret token v] ∧ ¬ v.isMissing ∧
      continuation params body = .lambda params v ∧ bodyValue body = v) ∨
    ((∀ token v, body = [.ret token v] → v.isMissing) ∧
      continuation params body = .lambdaBlock params body ∧ bodyValue body = .immediate body) := by
  unfold continuation bodyValue
  fun_cases returned? body with
  | case1 token e h => exact .inr ⟨fun _ _ heq => by cases heq; exact h, rfl, rfl⟩
  | case2 token e h => exact .inl ⟨token, e, rfl, h, rfl, rfl⟩
  | case3 body h => exact .inr ⟨fun token v heq => (h token v heq).elim, rfl, rfl⟩

/-- A call that is lowered as a Do block has an arrow function whose block binds an effect. The pins
of the block are inserted among its statements. The call becomes the forward reading of these: the
parts are lowered from the last to the first, the order in which names are handed out, and are put
together by a recursion from the first to the last. Continuations and the whole block collapse to
the value of a single return. -/
theorem Lower.do_call_forward (env : Env) (i : Info) (facts : CallFacts) (callee : Expr)
    (typeArgs : List TypeRef) (args : List Expr) (map flatMap : Signature)
    (hroute : callRoute env.compilation facts callee args = .chain map flatMap) :
    ∃ j ps token unique ss result, args = [.arrow j ps (.mk token unique ss) result] ∧
      hasBind ss ∧ facts.doBlock = some ⟨some map, some flatMap⟩ ∧
      expr env (.call i facts callee typeArgs args) = (do
        let pins ← registerPins env unique
        let ss ← insertPins pins ss
        let parts ← parts env map flatMap (DoItem.read ss)
        return bodyValue (DoPart.low parts)) ∧
      ∀ params body,
        (∃ token v, body = [.ret token v] ∧ ¬ v.isMissing ∧
          continuation params body = .lambda params v ∧ bodyValue body = v) ∨
        ((∀ token v, body = [.ret token v] → v.isMissing) ∧
          continuation params body = .lambdaBlock params body ∧
          bodyValue body = .immediate body) := by
  obtain ⟨-, -, hbody, -, hdo⟩ := callRoute_eq_chain_iff.1 hroute
  have hfits := callRoute_fits env.compilation facts callee args
  rw [hroute] at hfits
  obtain ⟨j, ps, token, unique, ss, result, rfl⟩ := hfits
  refine ⟨j, ps, token, unique, ss, result, rfl, hbody, hdo, ?_, collapse⟩
  rw [expr, hroute]
  dsimp only
  rw [doArgument, doArrow, doBlock_eq]

/-- `$(effect)` -/
def bindOf (effect : Expr) : Expr :=
  .call {} { bind := true } (.ofName "$") [] [effect]

/-- `($) => { const a = $(x); log(); $(y); return a; }` -/
def steps : Expr :=
  .arrow {} [.ofIdent (.synthetic "$")]
    (.ofStmts
      [.constant (.synthetic "a") (bindOf (.ofName "x")) false,
        .ofExpr ((Expr.ofName "log").apply []),
        .ofExpr (bindOf (.ofName "y")), .returning (.ofName "a")])
    .missing

/-- The facts of a call of Do. -/
def doFacts : CallFacts :=
  { doBlock := some ⟨some { exportName := "map" }, some { exportName := "flatMap" }⟩ }

/-- The step of `y` is the last one; the statement in front of it stays in the continuation of
`x`. -/
theorem Lower.do_call_forward_steps :
    callRoute {} doFacts (.ofName "Do") [steps] =
        .chain { exportName := "map" } { exportName := "flatMap" } ∧
      ((expr { compilation := {} } (.call {} doFacts (.ofName "Do") [] [steps])).run
        { names := .begin {} }).1 =
        (Expr.ofName "flatMap").apply
          [.ofName "x", .lambdaBlock [.synthetic "a"]
            [.ofExpr ((Expr.ofName "log").apply []),
              .returning ((Expr.ofName "map").apply [.ofName "y", .lambda [] (.ofName "a")])]] := by
  refine ⟨rfl, ?_⟩
  obtain ⟨j, ps, token, unique, ss, result, hargs, -, -, hexpr, -⟩ :=
    do_call_forward { compilation := {} } {} doFacts (.ofName "Do") [] [steps]
      { exportName := "map" } { exportName := "flatMap" } rfl
  cases hargs
  rw [hexpr]
  rfl

end ExtensionLowering
