import ExtensionLowering.Lowering.Expr
/-!
# The shape of routed calls

The rule that lowers a call tells the shape of its callee and arguments, and of the result as far as
other rules rely on it: a call that is kept is lowered to a call.
-/
namespace ExtensionLowering

variable (c : Compilation) (facts : CallFacts) (callee : Expr) (args : List Expr)

/-- The shape of the calls that are lowered by a rule. -/
def CallRoute.Fits (callee : Expr) (args : List Expr) : CallRoute → Prop
  | .pipe | .function _ => ∃ e es, args = e :: es
  | .identity | .fuse _ => ∃ e, args = [e]
  | .chain _ _ => ∃ i ps t unique ss r, args = [.arrow i ps (.mk t unique ss) r]
  | .method _ | .methodPipe => ∃ i facts o n q, callee = .prop i facts o n q
  | _ => True

theorem fluentRoute_fits : (fluentRoute c facts callee args).Fits callee args := by
  have hprop (h : callee.isProp) : ∃ i facts o n q, callee = .prop i facts o n q := by
    cases callee with
    | prop i g o n q => exact ⟨i, g, o, n, q, rfl⟩
    | _ => cases h
  have hcons (h : ¬ args.isEmpty) : ∃ e es, args = e :: es := by
    cases args with
    | nil => exact absurd rfl h
    | cons e es => exact ⟨e, es, rfl⟩
  unfold fluentRoute
  split
  · trivial
  · split
    · trivial
    · dsimp only
      split
      · split <;> exact hprop ‹_›
      · split
        · trivial
        · split <;> exact hcons ‹_›

theorem ordinaryRoute_fits : (ordinaryRoute c facts callee args).Fits callee args := by
  unfold ordinaryRoute
  split
  · rename_i target h
    split at h
    · exact List.length_eq_one_iff.1 ‹_›
    · cases h
  · split
    · rename_i h
      split at h
      · rename_i hbody
        unfold isDoBody at hbody
        split at hbody
        · exact ⟨_, _, _, _, _, _, rfl⟩
        · cases hbody
      · cases h
    · split
      · trivial
      · split
        · exact fluentRoute_fits c facts callee args
        · trivial

theorem callRoute_fits : (callRoute c facts callee args).Fits callee args := by
  unfold callRoute
  split
  · trivial
  · split
    · split
      · exact ordinaryRoute_fits c facts callee args
      · cases args with
        | nil => contradiction
        | cons e es => exact ⟨e, es, rfl⟩
    · split
      · split
        · trivial
        · exact ⟨_, rfl⟩
      · trivial
    · trivial
    · trivial
    · exact ordinaryRoute_fits c facts callee args

theorem Lower.run_bind {α β : Type} (x : Lower α) (f : α → Lower β) (u : Lowering) :
    (x >>= f).run u = (f (x.run u).1).run (x.run u).2 := rfl

/-- A kept call is lowered to a call. -/
theorem Lower.expr_isCall (env : Env) {e : Expr} (h : e.isKept env.compilation) (u : Lowering) :
    ∃ i facts callee ts args, ((expr env e).run u).1 = .call i facts callee ts args := by
  cases e with
  | call i facts callee ts args =>
    rw [Expr.isKept] at h
    rw [Lower.expr]
    cases hroute : callRoute env.compilation facts callee args with
    | plain | extension | unresolved => exact ⟨_, _, _, _, _, rfl⟩
    | fuse target =>
      simp only [hroute, Bool.not_eq_true'] at h
      simp only [run_bind]
      split
      · rw [h, if_neg Bool.false_ne_true]
        exact ⟨_, _, _, _, _, rfl⟩
      · exact ⟨_, _, _, _, _, rfl⟩
    | _ => simp [hroute] at h
  | _ => cases h

end ExtensionLowering
