import ExtensionLowering.Proofs.Lowering.DoBlock
import ExtensionLowering.Proofs.Lowering.Handover
import ExtensionLowering.Proofs.Tree.Placement
/-!
# What lowering inserts is well placed

Lowering inserts references, traces, derived values, pinned copies and continuations. None of them
holds a spread or `super` of its own, so each is as well placed as the parts it is given.
-/
namespace ExtensionLowering

open List

/-! ## What is put together -/

theorem Param.allPlaced_ofIdent (ids : List Ident) : Param.allPlaced (ids.map .ofIdent) := by
  induction ids with
  | nil => rfl
  | cons id ids ih => simpa [Param.allPlaced, Param.ofIdent, Param.placed, Expr.placed] using ih

namespace Expr

variable {fn e : Expr} {es : List Expr} {p : Place}

theorem placed_apply_iff : (fn.apply es).placed p ↔ fn.placed .head ∧ allPlaced es := by
  simp [apply, applyTyped, placed]

theorem placed_apply (hfn : fn.placed .operand) (hes : allPlaced es) : (fn.apply es).placed p :=
  placed_apply_iff.2 ⟨placed_of_operand hfn, hes⟩

theorem placed_extensionCallTyped_iff {pipeable : Bool} {ts : List TypeRef} :
    (extensionCallTyped fn pipeable ts e es).placed p ↔
      fn.placed .head ∧ e.placed .element ∧ allPlaced es := by
  cases pipeable with
  | false => simp [extensionCallTyped, applyTyped, placed, allPlaced]
  | true =>
    rw [extensionCallTyped, if_pos rfl, placed_apply_iff]
    simp only [applyTyped, placed, allPlaced, Bool.and_eq_true, and_true]
    exact and_assoc.trans (and_congr_right fun _ => and_comm)

theorem placed_extensionCallTyped (hfn : fn.placed .operand) (he : e.placed .element)
    (hes : allPlaced es) (pipeable : Bool) (ts : List TypeRef) :
    (extensionCallTyped fn pipeable ts e es).placed p :=
  placed_extensionCallTyped_iff.2 ⟨placed_of_operand hfn, he, hes⟩

theorem placed_simplifyObject : (simplifyObject e).placed p = e.placed p := by
  unfold simplifyObject
  split <;> rfl

theorem placed_lambda_iff {params : List Ident} :
    (lambda params e).placed p ↔ e.placed .operand := by
  simp [lambda, placed, Param.allPlaced_ofIdent, Block.placed]

end Expr

theorem Pin.allPlaced_stmts (pins : List Pin) : Stmt.allPlaced (pins.map Pin.stmt) := by
  rw [Stmt.allPlaced_iff]
  intro s hs
  obtain ⟨p, -, rfl⟩ := mem_map.1 hs
  rfl

theorem Pin.allPlaced_place (pins : List Pin) {ss : List Stmt} (h : Stmt.allPlaced ss) :
    Stmt.allPlaced (place pins ss).1 := by
  induction ss generalizing pins with
  | nil => rfl
  | cons s ss ih =>
    simp only [Stmt.allPlaced, Bool.and_eq_true] at h
    simp only [place, cons_append, Stmt.allPlaced, Bool.and_eq_true, Stmt.allPlaced_append]
    exact ⟨h.1, allPlaced_stmts _, ih _ h.2⟩

theorem continuation_placed_iff {body : List Stmt} (params : List Ident) {p : Place} :
    (continuation params body).placed p ↔ Stmt.allPlaced body := by
  obtain ⟨token, v, rfl, -, heq, -⟩ | ⟨-, heq, -⟩ := collapse params body
  · simp [heq, Expr.lambda, Expr.placed, Param.allPlaced_ofIdent, Block.placed, Stmt.allPlaced,
      Stmt.placed]
  · simp [heq, Expr.lambdaBlock, Expr.placed, Param.allPlaced_ofIdent, Block.ofStmts, Block.placed]

theorem bodyValue_placed_iff {body : List Stmt} :
    (bodyValue body).placed .operand ↔ Stmt.allPlaced body := by
  obtain ⟨token, v, rfl, -, -, heq⟩ | ⟨-, -, heq⟩ := collapse [] body
  · simp [heq, Stmt.allPlaced, Stmt.placed]
  · simp [heq, Expr.immediate, Expr.apply, Expr.applyTyped, Expr.lambdaBlock, Expr.placed,
      Expr.allPlaced, Param.allPlaced, Block.ofStmts, Block.placed]

/-! ## What is inserted -/

namespace Lower

variable {env : Env} {token : Token}
variable {α β : Type}
variable {fn : Expr}

/-- Whatever the state, the result is as it should be. -/
def Yields (P : α → Prop) (x : Lower α) : Prop :=
  ∀ u, P (x.run u).1

namespace Yields

variable {P : α → Prop} {Q : β → Prop} {x : Lower α} {f : α → Lower β}

theorem pure {a : α} (h : P a) : Yields P (Pure.pure a) :=
  fun _ => h

theorem bind (hx : Yields P x) (hf : ∀ a, P a → Yields Q (f a)) : Yields Q (x >>= f) :=
  fun u => hf _ (hx u) _

theorem any (hf : ∀ a, Yields Q (f a)) : Yields Q (x >>= f) :=
  fun _ => hf _ _

theorem gives (h : Yields P x) {a : α} (ha : x.Gives a) : P a := by
  obtain ⟨u, rfl⟩ := ha
  exact h u

theorem mapM {γ : Type} {f : γ → Lower α} (hf : ∀ x, Yields P (f x)) (xs : List γ) :
    Yields (∀ a ∈ ·, P a) (xs.mapM f) := by
  induction xs with
  | nil =>
    rw [mapM_nil]
    exact .pure (by simp)
  | cons x xs ih =>
    rw [mapM_cons]
    exact (hf x).bind fun a ha => ih.bind fun as has => .pure (forall_mem_cons.2 ⟨ha, has⟩)

end Yields

theorem name_placed (x : Ident) : Yields (·.placed .operand) (name x) := by
  unfold name
  split
  · exact .any fun _ => .pure rfl
  · exact .pure rfl

theorem shorthand_placed (token : Token) (id : Option Ident) :
    Yields (Property.placed ·) (shorthand token id) := by
  unfold shorthand
  split
  · exact .pure rfl
  · split
    · exact (name_placed _).bind fun e he => .pure (by
        simpa only [Property.placed, Bool.and_eq_true] using ⟨rfl, he⟩)
    · exact .pure rfl

theorem reference_placed (env : Env) (d : Option Declaration) (exportName : String)
    (token : Token) : Yields (·.placed .operand) (reference env d exportName token) := by
  cases d with
  | none => exact .pure rfl
  | some d =>
    rw [reference]
    split
    · split
      · exact .any fun _ => .pure rfl
      · exact .pure rfl
    · split
      · exact .any fun _ => .pure rfl
      · exact .any fun _ => .pure rfl

theorem notImplemented_placed : notImplemented.placed .operand := rfl

theorem declarationReference_placed (env : Env) (d : Option Declaration) (token : Token) :
    Yields (·.placed .operand) (declarationReference env d token) := by
  cases d with
  | none => exact .pure notImplemented_placed
  | some d => exact reference_placed env (some d) d.name token

theorem trace_placed (env : Env) (token : Token) :
    Yields (·.placed .operand) (trace env token) := by
  unfold trace
  split
  · exact .pure rfl
  · exact .any fun _ => .pure rfl

theorem withTrace_placed (env : Env) (s : Signature) (token : Token) :
    Yields (Expr.allPlaced ·) (withTrace env s token []) := by
  unfold withTrace
  split
  · exact (trace_placed env token).bind fun e he => .pure (by
      simpa [Expr.allPlaced] using Expr.placed_of_operand he)
  · exact .pure rfl

theorem literal_placed (v : Literal) : v.expr.placed .operand := by
  cases v <;> rfl

theorem deriveNode_placed (env : Env) (token : Token) {part : Option DerivId → Lower Expr}
    (hpart : ∀ d, Yields (·.placed .operand) (part d)) (id : DerivId) (d : Derivation) :
    Yields (·.placed .operand) (deriveNode env token part id d) := by
  have hdeclared (decl : Option DeclId) :=
    declarationReference_placed env (env.compilation.declaration? decl) token
  cases d with
  | invalid => exact .pure notImplemented_placed
  | blockScope decl =>
    refine .any fun pin => ?_
    cases pin with
    | none => exact hdeclared decl
    | some x => exact .pure rfl
  | implicitScope decl => exact hdeclared decl
  | emptyObject => exact .pure rfl
  | literal v => exact .pure (literal_placed v)
  | intersection fields | object fields =>
    refine (Yields.mapM (P := (Property.placed ·)) (fun f => ?_) fields).bind fun ps hps => .pure ?_
    · exact (hpart _).bind fun e he => .pure he
    · exact Property.allPlaced_iff.2 hps
  | tuple fields =>
    exact (Yields.mapM hpart fields).bind fun es hes => .pure (Expr.allPlaced_of_operand hes)
  | prior target =>
    refine .any fun s => ?_
    cases s.names.derivation? target with
    | none => exact .pure notImplemented_placed
    | some x => exact .pure rfl
  | rule decl args users lazyRule =>
    simp only [deriveNode]
    split
    · exact (hdeclared decl).bind fun fn hfn => (Yields.mapM hpart args).bind fun es hes =>
        .pure (Expr.placed_apply hfn (Expr.allPlaced_of_operand hes))
    · cases lazyRule with
      | none => exact .pure notImplemented_placed
      | some lazyRule =>
        refine .any fun self => (hdeclared (some lazyRule)).bind fun wrap hwrap => ?_
        refine (hdeclared decl).bind fun fn hfn => (Yields.mapM hpart args).bind fun es hes => ?_
        refine .pure (Expr.placed_apply hwrap ?_)
        have hrule : (fn.apply es).placed .operand :=
          Expr.placed_apply hfn (Expr.allPlaced_of_operand hes)
        simpa [Expr.allPlaced, Expr.placed_lambda_iff] using hrule

theorem deriveWithin_placed (env : Env) (token : Token) (n : Nat) (d : Option DerivId) :
    Yields (·.placed .operand) (deriveWithin env token n d) := by
  induction n generalizing d with
  | zero => cases d <;> exact .pure notImplemented_placed
  | succ n ih =>
    cases d with
    | none => exact .pure notImplemented_placed
    | some id =>
      rw [deriveWithin]
      split
      · exact .pure notImplemented_placed
      · exact deriveNode_placed env token ih id _

theorem fill_placed (env : Env) (token : Token) (skipped : Nat) (ps : List Formal) :
    Yields (Expr.allPlaced ·) (fill env token skipped ps) := by
  induction ps generalizing skipped with
  | nil => exact .pure rfl
  | cons p ps ih =>
    rw [fill]
    split
    · have hrest (e : Expr) (he : e.placed .operand) : Yields (Expr.allPlaced ·) (do
          let es ← fill env token 0 ps
          return replicate skipped .voidZero ++ e :: es) := by
        refine (ih 0).bind fun es hes => .pure ?_
        simp only [Expr.allPlaced_append, Expr.allPlaced, Bool.and_eq_true]
        refine ⟨Expr.allPlaced_of_operand fun x hx => ?_, Expr.placed_of_operand he, hes⟩
        rw [eq_of_mem_replicate hx]
        rfl
      dsimp only
      split
      · exact (deriveWithin_placed env token _ _).bind hrest
      · exact (trace_placed env token).bind hrest
    · exact ih _

theorem complete_placed (env : Env) (token : Token) (facts : CallFacts) (args : List Expr) :
    Yields (Expr.allPlaced ·) (complete env token facts args []) := by
  unfold complete
  split
  · exact .pure rfl
  · split
    · exact .pure rfl
    · exact (fill_placed env token 0 _).bind fun es hes => .pure hes

theorem Gives.extensionReference_placed {s : Signature}
    (h : (extensionReference env s token).Gives fn) : fn.placed .operand :=
  Yields.gives (reference_placed env _ _ token) h

theorem Gives.targetReference_placed {t : Target} (h : (targetReference env t token).Gives fn) :
    fn.placed .operand :=
  Yields.gives (reference_placed env _ _ token) h

theorem Gives.declarationReference_placed {d : Option Declaration}
    (h : (declarationReference env d token).Gives fn) : fn.placed .operand :=
  Yields.gives (Lower.declarationReference_placed env d token) h

theorem Gives.withTrace_placed {s : Signature} {es : List Expr}
    (h : (withTrace env s token []).Gives es) : Expr.allPlaced es :=
  Yields.gives (Lower.withTrace_placed env s token) h

theorem Gives.complete_placed {facts : CallFacts} {args es : List Expr}
    (h : (complete env token facts args []).Gives es) : Expr.allPlaced es :=
  Yields.gives (Lower.complete_placed env token facts args) h

end Lower

end ExtensionLowering
