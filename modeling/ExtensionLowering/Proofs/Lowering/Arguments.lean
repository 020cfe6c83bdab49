import ExtensionLowering.Proofs.Lowering.Route
import Mathlib.Order.Bounds.Basic
/-!
# Arguments and their parameters

A call that is kept passes its own arguments first. Behind them it is completed up to the last
parameter that can be filled: an automatic one, or a trace that is the last parameter of all. What
is passed at a position is said here from the position alone, and the arguments of the lowered call
are what the positions ask for, one after the other. So no argument is shifted to a neighbouring
parameter, however many parameters are skipped in between.

## Main definitions

* `isFilled`: whether a parameter is filled when a call has no argument for it.
* `Lower.passed`: what a call passes at a position.
* `Lower.InTurn`: the results of actions that run one after the other.

## Main statements

* `Lower.arguments_aligned`: the arguments of every call that is kept.
-/
namespace ExtensionLowering

open List

variable {ps : List Formal}
variable {m : Nat} (p : Formal)

/-- Whether the parameter at position `j` is filled when the call has no argument for it. -/
def isFilled (ps : List Formal) (j : Nat) : Bool :=
  ps[j]?.any fun p => p.automatic || (p.trace && j + 1 = ps.length)

/-- How many of the parameters get an argument: all up to the last one that is filled. -/
def extent : List Formal → Nat
  | [] => 0
  | p :: ps =>
    if 0 < extent ps || p.automatic || (p.trace && ps.isEmpty) then extent ps + 1 else 0

theorem isFilled_cons_zero (ps : List Formal) :
    isFilled (p :: ps) 0 = (p.automatic || (p.trace && ps.isEmpty)) := by
  cases ps <;> simp [isFilled]

theorem isFilled_cons_succ (ps : List Formal) (j : Nat) :
    isFilled (p :: ps) (j + 1) = isFilled ps j := by
  simp [isFilled]

theorem isFilled_drop (ps : List Formal) (m j : Nat) :
    isFilled (ps.drop m) j = isFilled ps (m + j) := by
  induction m generalizing ps with
  | zero => simp
  | succ m ih =>
    cases ps with
    | nil => simp [isFilled]
    | cons p ps =>
      rw [drop_succ_cons, ih, Nat.succ_add, isFilled_cons_succ]

theorem extent_cons (ps : List Formal) :
    extent (p :: ps) = if 0 < extent ps || isFilled (p :: ps) 0 then extent ps + 1 else 0 := by
  rw [extent, isFilled_cons_zero, Bool.or_assoc]

/-- A parameter is within the extent exactly if it or a later one is filled. -/
theorem lt_extent_iff {j : Nat} : j < extent ps ↔ ∃ k ≥ j, isFilled ps k := by
  induction ps generalizing j with
  | nil => simp [extent, isFilled]
  | cons p ps ih =>
    have hlater : 0 < extent ps ↔ ∃ k, isFilled ps k := by simpa using ih (j := 0)
    have hsplit : (∃ k ≥ j, isFilled (p :: ps) k) ↔
        (j = 0 ∧ isFilled (p :: ps) 0) ∨ ∃ k ≥ j - 1, isFilled ps k := by
      constructor
      · rintro ⟨k, hk, hfilled⟩
        cases k with
        | zero => exact .inl ⟨by omega, hfilled⟩
        | succ k => exact .inr ⟨k, by omega, by rwa [isFilled_cons_succ] at hfilled⟩
      · rintro (⟨rfl, hfilled⟩ | ⟨k, hk, hfilled⟩)
        · exact ⟨0, Nat.le_refl 0, hfilled⟩
        · exact ⟨k + 1, by omega, by rwa [isFilled_cons_succ]⟩
    rw [hsplit, ← ih, extent_cons]
    by_cases hpos : 0 < extent ps
    · simp only [hpos, decide_true, Bool.true_or, if_true]
      omega
    · have hzero : extent ps = 0 := by omega
      by_cases hfilled : isFilled (p :: ps) 0 <;> simp [hzero, hfilled]

/-- The same for the parameters behind the first `m`. -/
theorem lt_add_extent_iff {j : Nat} (hj : m ≤ j) :
    j < m + extent (ps.drop m) ↔ ∃ k ≥ j, isFilled ps k := by
  have hshift : j < m + extent (ps.drop m) ↔ j - m < extent (ps.drop m) := by omega
  rw [hshift, lt_extent_iff]
  constructor
  · rintro ⟨k, hk, hfilled⟩
    exact ⟨m + k, by omega, by rwa [isFilled_drop] at hfilled⟩
  · rintro ⟨k, hk, hfilled⟩
    refine ⟨k - m, by omega, ?_⟩
    rwa [isFilled_drop, Nat.add_sub_cancel' (by omega)]

theorem add_extent_of_isGreatest {k : Nat} (h : IsGreatest {j | m ≤ j ∧ isFilled ps j} k) :
    m + extent (ps.drop m) = k + 1 := by
  obtain ⟨⟨hm, hk⟩, hmax⟩ := h
  have hlast : k < m + extent (ps.drop m) := (lt_add_extent_iff hm).2 ⟨k, Nat.le_refl k, hk⟩
  have hend : ¬ k + 1 < m + extent (ps.drop m) := by
    intro hlt
    obtain ⟨j, hj, hfilled⟩ := (lt_add_extent_iff (by omega)).1 hlt
    have : j ≤ k := hmax ⟨by omega, hfilled⟩
    omega
  omega

theorem add_extent_of_forall_not (h : ∀ j ≥ m, ¬ isFilled ps j) : m + extent (ps.drop m) = m := by
  have hend : ¬ m < m + extent (ps.drop m) := by
    intro hlt
    obtain ⟨j, hj, hfilled⟩ := (lt_add_extent_iff (Nat.le_refl m)).1 hlt
    exact h j hj hfilled
  omega

namespace Lower

variable {ps : List Formal} {facts : CallFacts} {args : List Expr}
variable {env : Env}

/-- What is passed for the parameter at position `j` when the call has no argument for it. -/
def slot (env : Env) (token : Token) (ps : List Formal) (j : Nat) : Lower Expr :=
  match ps[j]? with
  | none => return .voidZero
  | some p =>
    if p.automatic then derive env p.derivation token
    else if p.trace && j + 1 = ps.length then trace env token
    else return .voidZero

/-- What a call passes at position `j`: its own argument, or what the parameter asks for. -/
def passed (env : Env) (token : Token) (args : List Expr) (ps : List Formal) (j : Nat) :
    Lower Expr :=
  match args[j]? with
  | some e => return thunkIf e.lazy (← expr env e)
  | none => slot env token ps j

/-- The actions run one after the other from `u` to `v` and have the results. -/
def InTurn (act : Nat → Lower Expr) (u : Lowering) (out : List Expr) (v : Lowering) : Prop :=
  ∃ states : Nat → Lowering, states 0 = u ∧ states out.length = v ∧
    ∀ j e, out[j]? = some e → (act j).run (states j) = (e, states (j + 1))

/-! ## Filling in arguments -/

theorem slot_cons_succ (env : Env) (token : Token) (p : Formal) (ps : List Formal) (j : Nat) :
    slot env token (p :: ps) (j + 1) = slot env token ps j := by
  simp [slot]

theorem slot_drop (env : Env) (token : Token) (ps : List Formal) (m j : Nat) :
    slot env token (ps.drop m) j = slot env token ps (m + j) := by
  induction m generalizing ps with
  | zero => simp
  | succ m ih =>
    cases ps with
    | nil => simp [slot]
    | cons p ps => rw [drop_succ_cons, ih, Nat.succ_add, slot_cons_succ]

theorem slot_of_isFilled {token : Token} {p : Formal} (h : isFilled (p :: ps) 0) :
    slot env token (p :: ps) 0 =
      if p.automatic then derive env p.derivation token else trace env token := by
  cases ps <;> cases hauto : p.automatic <;> simp_all [slot, isFilled]

theorem slot_of_not_isFilled {token : Token} {p : Formal} (h : ¬ isFilled (p :: ps) 0) :
    slot env token (p :: ps) 0 = pure .voidZero := by
  cases ps <;> simp_all [slot, isFilled]

theorem mapM_slot_cons (env : Env) (token : Token) (p : Formal) (ps : List Formal) (n : Nat) :
    (range (n + 1)).mapM (slot env token (p :: ps)) = do
      let e ← slot env token (p :: ps) 0
      let es ← (range n).mapM (slot env token ps)
      return e :: es := by
  rw [range_succ_eq_map, mapM_cons, mapM_map]
  simp only [Function.comp_def, slot_cons_succ]

/-- The parameters skipped so far get their place as soon as a later one is filled. -/
theorem fill_eq (env : Env) (token : Token) (ps : List Formal) (skipped : Nat) :
    fill env token skipped ps = do
      let es ← (range (extent ps)).mapM (slot env token ps)
      return replicate (if extent ps = 0 then 0 else skipped) .voidZero ++ es := by
  induction ps generalizing skipped with
  | nil => rfl
  | cons p ps ih =>
    rw [fill, ← isFilled_cons_zero]
    by_cases hfilled : isFilled (p :: ps) 0
    · have hextent : extent (p :: ps) = extent ps + 1 := by simp [extent_cons, hfilled]
      rw [if_pos hfilled, hextent, mapM_slot_cons, slot_of_isFilled hfilled]
      dsimp only
      split <;> simp [ih]
    · rw [if_neg hfilled, ih]
      by_cases hzero : extent ps = 0
      · simp [extent_cons, hzero, hfilled]
      · have hextent : extent (p :: ps) = extent ps + 1 := by
          simp [extent_cons, Nat.pos_of_ne_zero hzero]
        simp [hextent, mapM_slot_cons, slot_of_not_isFilled hfilled, hzero, replicate_succ']

/-! ## Positions -/

theorem arguments_eq (env : Env) (args : List Expr) (other : Nat → Lower Expr) :
    arguments env args = (range args.length).mapM fun j =>
      match args[j]? with
      | some e => return thunkIf e.lazy (← expr env e)
      | none => other j := by
  induction args generalizing other with
  | nil => simp [arguments]
  | cons e es ih =>
    rw [length_cons, range_succ_eq_map, mapM_cons, mapM_map]
    simp [arguments, ih fun j => other (j + 1), Function.comp_def]

theorem arguments_passed (env : Env) (token : Token) (args : List Expr) (ps : List Formal) :
    arguments env args = (range args.length).mapM (passed env token args ps) :=
  arguments_eq env args (slot env token ps)

/-- A call without a spread passes something at each position up to the last parameter that is
filled. -/
theorem complete_eq (env : Env) (token : Token) (hps : facts.formals = some ps)
    (hspread : ¬ args.any (·.isSpread)) :
    (do complete env token facts args (← arguments env args)) =
      (range (args.length + extent (ps.drop args.length))).mapM
        (passed env token args ps) := by
  have hbehind : (passed env token args ps ∘ (args.length + ·)) =
      slot env token (ps.drop args.length) := by
    funext j
    simp [passed, slot_drop]
  rw [range_add, mapM_append, mapM_map, hbehind, ← arguments_passed]
  simp only [complete, hps, if_neg hspread, fill_eq]
  simp

/-- Nothing is added behind a spread, or when the parameters are not known. -/
theorem complete_eq_of_unfilled (env : Env) (token : Token)
    (h : facts.formals = none ∨ args.any (·.isSpread)) (ps : List Formal) :
    (do complete env token facts args (← arguments env args)) =
      (range args.length).mapM (passed env token args ps) := by
  rw [← arguments_passed]
  unfold complete
  obtain hnone | hspread := h
  · simp [hnone]
  · cases facts.formals <;> simp [hspread]

theorem mapM_range_inTurn (act : Nat → Lower Expr) (n : Nat) (u : Lowering) :
    ∃ out v, ((range n).mapM act).run u = (out, v) ∧ out.length = n ∧ InTurn act u out v := by
  let out (j : Nat) : List Expr := (((range j).mapM act).run u).1
  let state (j : Nat) : Lowering := (((range j).mapM act).run u).2
  have hsucc (j : Nat) : out (j + 1) = out j ++ [((act j).run (state j)).1] ∧
      state (j + 1) = ((act j).run (state j)).2 := by
    simp only [out, state, range_succ, mapM_append, mapM_cons, mapM_nil]
    exact ⟨rfl, rfl⟩
  have hlength (j : Nat) : (out j).length = j := by
    induction j with
    | zero => rfl
    | succ j ih => rw [(hsucc j).1, length_append, ih, length_singleton]
  refine ⟨out n, state n, rfl, hlength n, state, rfl, by rw [hlength], ?_⟩
  induction n with
  | zero => exact fun j e he => by cases he
  | succ n ih =>
    intro j e he
    rw [(hsucc n).1] at he
    by_cases hj : j < n
    · rw [getElem?_append_left (by rwa [hlength])] at he
      exact ih j e he
    · have hbound := (List.getElem?_eq_some_iff.1 he).1
      rw [length_append, hlength, length_singleton] at hbound
      obtain rfl : j = n := by omega
      obtain rfl : ((act j).run (state j)).1 = e := by
        rw [getElem?_append_right (hlength j).le] at he
        simpa [hlength] using he
      exact Prod.ext rfl (hsucc j).2.symm

/-- The lowered callee of a call that passes its own arguments: its own, or the extension behind it.
A curried call is passed on when it cannot be fused. -/
def keptCallee (env : Env) (token : Token) (callee : Expr) : CallRoute → Option (Lower Expr)
  | .plain => some (expr env callee)
  | .extension s => some do
    let callee' ← expr env callee
    let fn ← extensionReference env s token
    retract env callee'
    return fn
  | .fuse _ => if callee.isKept env.compilation then none else some (expr env callee)
  | _ => none

theorem expr_kept (env : Env) (i : Info) (facts : CallFacts) (callee : Expr) (ts : List TypeRef)
    (args : List Expr) {c : Lower Expr}
    (h : keptCallee env i.token callee (callRoute env.compilation facts callee args) = some c) :
    expr env (.call i facts callee ts args) = do
      let callee' ← c
      let out ← (do complete env i.token facts args (← arguments env args))
      return .call i facts callee' ts out := by
  rw [expr]
  cases hroute : callRoute env.compilation facts callee args with
  | plain =>
    obtain rfl : expr env callee = c := by simpa [hroute, keptCallee] using h
    simp only [bind_assoc]
  | extension s =>
    rw [hroute] at h
    obtain rfl := Option.some.inj h
    simp only [bind_assoc, pure_bind]
  | fuse target =>
    rw [hroute, keptCallee] at h
    split at h
    · cases h
    · rename_i hkept
      obtain rfl := Option.some.inj h
      simp only [bind_assoc]
      refine bind_congr fun inner => bind_congr fun args' => ?_
      split
      · rw [if_neg hkept]
      · rfl
  | _ =>
    rw [hroute] at h
    cases h

/-- The arguments of a call that is kept, when they are passed by positions. -/
theorem kept_inTurn {i : Info} {callee : Expr} (ts : List TypeRef) {c : Lower Expr}
    (hkept : keptCallee env i.token callee (callRoute env.compilation facts callee args) = some c)
    {act : Nat → Lower Expr} {n : Nat}
    (hargs : (do complete env i.token facts args (← arguments env args)) = (range n).mapM act)
    (u : Lowering) :
    ∃ out v, (expr env (.call i facts callee ts args)).run u =
        (.call i facts (c.run u).1 ts out, v) ∧
      InTurn act (c.run u).2 out v ∧ out.length = n := by
  obtain ⟨out, v, hrun, hlength, hturn⟩ := mapM_range_inTurn act n (c.run u).2
  refine ⟨out, v, ?_, hturn, hlength⟩
  rw [expr_kept env i facts callee ts args hkept, hargs, run_bind, run_bind, hrun]
  rfl

/-- A call that is kept passes its own arguments, delayed where they are lazy, and behind them what
its parameters ask for: a derived value for an automatic one, the trace for the last one if it
carries it, `void 0` for the others. It ends with the last parameter that is filled, or with its own
arguments. -/
theorem arguments_aligned (env : Env) (i : Info) (facts : CallFacts) (callee : Expr)
    (ts : List TypeRef) (args : List Expr) (c : Lower Expr)
    (hkept : keptCallee env i.token callee (callRoute env.compilation facts callee args) = some c)
    (u : Lowering) :
    ∃ out v, (expr env (.call i facts callee ts args)).run u =
        (.call i facts (c.run u).1 ts out, v) ∧
      InTurn (passed env i.token args (facts.formals.getD [])) (c.run u).2 out v ∧
      (facts.formals = none ∨ args.any (·.isSpread) → out.length = args.length) ∧
      ∀ ps, facts.formals = some ps → ¬ args.any (·.isSpread) →
        (∀ k, IsGreatest {j | args.length ≤ j ∧ isFilled ps j} k → out.length = k + 1) ∧
        ((∀ j ≥ args.length, ¬ isFilled ps j) → out.length = args.length) := by
  by_cases hunfilled : facts.formals = none ∨ args.any (·.isSpread)
  · obtain ⟨out, v, hrun, hturn, hlength⟩ := kept_inTurn ts hkept
      (complete_eq_of_unfilled env i.token hunfilled (facts.formals.getD [])) u
    refine ⟨out, v, hrun, hturn, fun _ => hlength, fun ps hps hspread => ?_⟩
    simp [hps, hspread] at hunfilled
  · obtain ⟨hformals, hspread⟩ := not_or.1 hunfilled
    obtain ⟨ps, hps⟩ := Option.ne_none_iff_exists'.1 hformals
    obtain ⟨out, v, hrun, hturn, hlength⟩ := kept_inTurn ts hkept
      (complete_eq env i.token hps hspread) u
    refine ⟨out, v, hrun, by rwa [hps], fun h => absurd h hunfilled, fun qs hqs _ => ?_⟩
    obtain rfl : ps = qs := Option.some.inj (hps.symm.trans hqs)
    rw [hlength]
    exact ⟨fun k hk => add_extent_of_isGreatest hk, fun hnone => add_extent_of_forall_not hnone⟩

/-- Five parameters, of which the third is automatic and the last one a trace. -/
def skippedFormals : List Formal :=
  [{}, {}, { automatic := true, derivation := some 0 }, {}, { trace := true }]

/-- The lazy argument `x` is delayed, and two parameters without an argument are skipped. -/
theorem arguments_aligned_skipped :
    let env : Env := { compilation := { derivations := #[.emptyObject] } }
    let facts : CallFacts := { formals := some skippedFormals }
    let x : Ident := { name := "x", lazy := true }
    callRoute env.compilation facts (.ofName "f") [.ident x] = .plain ∧
      IsGreatest {j | 1 ≤ j ∧ isFilled skippedFormals j} 4 ∧
      ∃ out v, (expr env (.call {} facts (.ofName "f") [] [.ident x])).run { names := .begin {} } =
          (.call {} facts (.ofName "f") [] out, v) ∧ out.length = 5 ∧
        out = [.thunk (.ident x), .voidZero, .ofProperties [], .voidZero,
          (Expr.ofIdent { Ident.synthetic "fileName_1" with mark := some 0 }).infixOp "+"
            (.ofString ":0:0")] := by
  intro env facts x
  have hgreatest : IsGreatest {j | 1 ≤ j ∧ isFilled skippedFormals j} 4 := by
    refine ⟨by decide, fun j ⟨_, hj⟩ => ?_⟩
    by_contra hlt
    have hnone : skippedFormals[j]? = none :=
      getElem?_eq_none (by simp [skippedFormals]; omega)
    simp [isFilled, hnone] at hj
  obtain ⟨out, v, hrun, -, -, hlength⟩ := arguments_aligned env {} facts (.ofName "f") []
    [.ident x] (expr env (.ofName "f")) rfl { names := .begin {} }
  refine ⟨rfl, hgreatest, out, v, hrun, (hlength skippedFormals rfl (by decide)).1 4 hgreatest, ?_⟩
  have hout := congrArg Prod.fst hrun
  injection hout with _ _ _ _ hout
  exact hout.symm

end Lower

end ExtensionLowering
