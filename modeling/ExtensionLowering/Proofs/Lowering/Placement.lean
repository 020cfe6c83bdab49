import ExtensionLowering.Proofs.Lowering.Insertion
import ExtensionLowering.Proofs.Lowering.Laziness
/-!
# Lowering keeps spreads and `super` in place

Some rules give a part of the tree another place: a stage of a pipe is called, the only argument of
a pipe stands for the call, the object of an access is passed as an argument. A spread or `super`
that is moved this way is exposed. In a file without such sites lowering keeps spreads in lists and
`super` in head position.

## Main definitions

* `Expr.exposes` — the sites that move a spread out of its list, or `super` from what it heads.

## Main statements

* `Session.lower_placed` — a well-placed file without exposing sites is lowered to a well-placed
  one, and as an operand an exposing site is lowered to something that is not.
* `Session.spread_stage_called` — a pipe calls a stage that is a spread.
-/
namespace ExtensionLowering

open List

variable {c : Compilation} {hs : List Handover} {e callee : Expr} {facts : CallFacts} {s : Stmt}
  {ts : List TypeRef} {ss : List Stmt} {env : Env}
variable {e' o o' : Expr} {i : Info}

/-! ## Exposing sites -/

/-- A statement that returns a bound effect which is a spread. -/
def Stmt.returnsSpread : Stmt → Bool
  | .ret _ (.call _ facts _ _ [e]) => facts.bind && e.isSpread
  | _ => false

/-- Does the body of a Do call end in returning a spread? -/
def endsInSpread : List Expr → Bool
  | [.arrow _ _ (.mk _ _ ss) _] => ss.getLast?.any (·.returnsSpread)
  | _ => false

/-- Does lowering move a spread of the call out of its list, or `super` away from what it heads? -/
def CallRoute.exposes (callee : Expr) (args : List Expr) : CallRoute → Bool
  | .pipe => args.tail.any (·.isSpread) || (args.length = 1 && args.any (·.isSpread))
  | .methodPipe => callee.accessed.isSuper || args.any (·.isSpread)
  | .method _ => callee.accessed.isSuper
  | .chain _ _ => endsInSpread args
  | _ => false

/-- The sites where lowering exposes a spread or `super`, told from the source. -/
def Expr.exposes (c : Compilation) : Expr → Bool
  | .prop _ facts o _ _ =>
    o.isSuper &&
      (facts.intrinsic = some .identity || facts.signature.any (·.kind = .getter))
  | .elem _ facts o _ => o.isSuper && facts.signature.any (·.kind = .indexer)
  | .call _ facts callee _ args => (callRoute c facts callee args).exposes callee args
  | _ => false

/-- A node that is neither a lazy spread nor an exposing site. -/
def Node.Calm (c : Compilation) : Node → Prop
  | .expr e => (e.isSpread → e.lazy = false) ∧ e.exposes c = false
  | _ => True

instance (c : Compilation) : DecidablePred (Node.Calm c)
  | .expr e => inferInstanceAs (Decidable ((e.isSpread → e.lazy = false) ∧ e.exposes c = false))
  | .file _ | .block _ | .stmt _ | .member _ | .param _ | .declarator _ | .property _ | .type _ =>
    isTrue trivial

/-! ## One rule after the other -/

/-- A hand-over is delayed as its role and the flag say. -/
def Handover.Settled (h : Handover) : Prop :=
  h.passed = thunkIf (h.role.delays && h.given.lazy) h.lowered

/-- Every node of a list is calm. -/
def AllCalm (c : Compilation) (ns : List Node) : Prop :=
  ∀ n ∈ ns, n.Calm c

def AllSettled (hs : List Handover) : Prop :=
  ∀ h ∈ hs, h.Settled

@[simp] theorem allCalm_visited {n : Node} {ns : List Node} :
    AllCalm c (visited (fun _ => true) n ns) ↔ n.Calm c ∧ AllCalm c ns :=
  forall_mem_cons

@[simp] theorem allCalm_append {ns ns' : List Node} :
    AllCalm c (ns ++ ns') ↔ AllCalm c ns ∧ AllCalm c ns' :=
  forall_mem_append

@[simp] theorem allSettled_append {hs' : List Handover} :
    AllSettled (hs ++ hs') ↔ AllSettled hs ∧ AllSettled hs' :=
  forall_mem_append

@[simp] theorem allSettled_cons {h : Handover} : AllSettled (h :: hs) ↔ h.Settled ∧ AllSettled hs :=
  forall_mem_cons

namespace Node.Calm

variable {c : Compilation} {i : Info} {o callee : Expr}

theorem access {facts : SiteFacts} {n : Option Ident} {q : Bool}
    (h : (Node.expr (.prop i facts o n q)).Calm c)
    (hmoved : facts.intrinsic = some .identity ∨ facts.signature.any (·.kind = .getter)) :
    ¬ o.isSuper := by
  intro hsuper
  have hexposes := h.2
  simp only [Expr.exposes, hsuper, Bool.true_and, Bool.or_eq_false_iff, decide_eq_false_iff_not]
    at hexposes
  exact hmoved.elim hexposes.1 fun hget => by simp [hexposes.2] at hget

theorem index {facts : SiteFacts} {x : Expr} (h : (Node.expr (.elem i facts o x)).Calm c)
    (hmoved : facts.signature.any (·.kind = .indexer)) : ¬ o.isSuper := by
  intro hsuper
  simpa [Expr.exposes, hsuper, hmoved] using h.2

theorem route {args : List Expr} {r : CallRoute}
    (h : (Node.expr (.call i facts callee ts args)).Calm c)
    (hroute : callRoute c facts callee args = r) : r.exposes callee args = false :=
  hroute ▸ h.2

end Node.Calm

theorem thunkIf_placed {p : Place} {delayed : Bool} (hp : p ≠ .head) (he : e.placed p)
    (he' : ∀ q, e.placed q → e'.placed q) (hspread : e.isSpread → delayed = false) :
    (thunkIf delayed e').placed p := by
  cases delayed with
  | false => exact he' p he
  | true =>
    refine Expr.placed_lambda_iff.2 (he' .operand ?_)
    have hspread : ¬ e.isSpread := fun h => Bool.noConfusion (hspread h)
    cases p with
    | operand => exact he
    | element => exact Expr.placed_of_element he hspread
    | head => exact absurd rfl hp

theorem ordinaryRoute_ne_identity (c : Compilation) (facts : CallFacts) (callee : Expr)
    (args : List Expr) : ordinaryRoute c facts callee args ≠ .identity := by
  unfold ordinaryRoute fluentRoute
  dsimp only
  repeat' split
  all_goals exact CallRoute.noConfusion

theorem callRoute_identity_spread
    (h : callRoute c facts callee [e] = .identity) : ¬ e.isSpread := by
  intro hspread
  have hordinary := ordinaryRoute_ne_identity c facts callee [e]
  unfold callRoute at h
  by_cases hsuper : callee.isSuper
  · simp [hsuper] at h
  · cases hmeaning : facts.intrinsic with
    | none => simp [hsuper, hmeaning, hordinary] at h
    | some intrinsic => cases intrinsic <;> simp [hsuper, hmeaning, hspread] at h

/-- The effect that a statement binds is an argument. -/
theorem Stmt.bound_placed (hbound : s.boundExpr = .call i facts callee ts [e]) (h : s.placed) :
    e.placed .element := by
  unfold Stmt.boundExpr at hbound
  split at hbound <;>
    simp_all [Stmt.placed, Declarator.allPlaced, Declarator.placed, Expr.placed, Expr.allPlaced]

theorem Stmt.bound_calm (hbound : s.boundExpr = .call i facts callee ts [e])
    (h : AllCalm c (s.walk fun _ => true)) : AllCalm c (e.walk fun _ => true) := by
  unfold Stmt.boundExpr at hbound
  split at hbound <;>
    simp_all [Stmt.walk, Declarator.walks, Declarator.walk, Expr.walk, Expr.walks]

theorem Expr.lazy_of_spread (hspread : e.isSpread)
    (h : AllCalm c (e.walk fun _ => true)) : e.lazy = false := by
  cases e with
  | spread i e =>
    simp only [Expr.walk, allCalm_visited] at h
    exact h.1.1 rfl
  | _ => cases hspread

theorem Stmt.returnsSpread_iff (hret : s.isReturnBind)
    (hbound : s.boundExpr = .call i facts callee ts [e]) : s.returnsSpread ↔ e.isSpread := by
  cases s with
  | ret token value =>
    simp only [Stmt.boundExpr] at hbound
    subst hbound
    simp only [Stmt.isReturnBind, Expr.isBind] at hret
    simp [Stmt.returnsSpread, hret]
  | _ => cases hret

theorem returnsSpread_cons_iff :
    (s :: ss).getLast?.any (·.returnsSpread) ↔
      (ss = [] ∧ s.returnsSpread) ∨ ss.getLast?.any (·.returnsSpread) := by
  cases ss with
  | nil => simp
  | cons s' ss => simp [getLast?_cons_cons]

theorem returnsSpread_tail (h : (s :: ss).getLast?.any (·.returnsSpread) = false) :
    ss.getLast?.any (·.returnsSpread) = false := by
  rw [← Bool.not_eq_true] at h ⊢
  exact fun hss => h (returnsSpread_cons_iff.2 (.inr hss))

/-- What a part needs to be lowered in place: it is in place itself, its nodes are calm and what it
hands over is settled. -/
structure Fit (c : Compilation) (inPlace : Bool) (ns : List Node) (hs : List Handover) : Prop where
  placed : inPlace = true
  calm : AllCalm c ns
  settled : AllSettled hs

namespace Fit

variable {c : Compilation} {n : Node} {ns ns' : List Node} {hs hs' : List Handover} {a b : Bool}

theorem node (h : Fit c a (visited (fun _ => true) n ns) hs) : n.Calm c :=
  (allCalm_visited.1 h.calm).1

theorem below (h : Fit c a (visited (fun _ => true) n ns) hs) : Fit c a ns hs :=
  ⟨h.placed, (allCalm_visited.1 h.calm).2, h.settled⟩

theorem left (h : Fit c a (ns ++ ns') hs) : Fit c a ns hs :=
  ⟨h.placed, (allCalm_append.1 h.calm).1, h.settled⟩

theorem right (h : Fit c a (ns ++ ns') hs) : Fit c a ns' hs :=
  ⟨h.placed, (allCalm_append.1 h.calm).2, h.settled⟩

/-- The same part in another place. -/
theorem moved (h : Fit c a ns hs) (hb : b = true) : Fit c b ns hs :=
  ⟨hb, h.calm, h.settled⟩

theorem fst (h : Fit c (a && b) (ns ++ ns') hs) : Fit c a ns hs :=
  h.left.moved (Bool.and_eq_true_iff.1 h.placed).1

theorem snd (h : Fit c (a && b) (ns ++ ns') hs) : Fit c b ns' hs :=
  h.right.moved (Bool.and_eq_true_iff.1 h.placed).2

theorem both (h : Fit c (a && b) (ns ++ ns') (hs ++ hs')) : Fit c a ns hs ∧ Fit c b ns' hs' :=
  ⟨{ h.fst with settled := (allSettled_append.1 h.settled).1 },
    { h.snd with settled := (allSettled_append.1 h.settled).2 }⟩

/-- An object other than `super` may stand anywhere. -/
theorem object {i : Info} {facts : SiteFacts} {o : Expr} {name : Option Ident} {q : Bool}
    {p p' : Place} (h : Fit c ((Expr.prop i facts o name q).placed p)
      ((Expr.prop i facts o name q).walk fun _ => true) hs) (ho : ¬ o.isSuper) :
    Fit c (o.placed p') (o.walk fun _ => true) hs :=
  h.below.left.moved (Expr.placed_of_head h.placed ho)

end Fit

mutual

theorem Expr.Becomes.placed {env : Env} {e e' : Expr} {hs : List Handover} {p : Place} :
    Expr.Becomes env e e' hs → Fit env.compilation (e.placed p) (e.walk fun _ => true) hs →
      e'.placed p
  | .leaf _, h | .unresolved _, h | .undeclaredOperator _ _ _ _, h => h.placed
  | .name h, _ => Expr.placed_of_operand ((Lower.name_placed _).gives h)
  | .access _ _ ho, h => ho.placed (p := .head) h.below.left
  | .identityAccess hid ho, h => ho.placed (h.object (h.node.access (.inl hid)))
  | .static _ _ _ hfn, _ => Expr.placed_of_operand hfn.extensionReference_placed
  | .getter _ hsig hkind ho hfn hextra, h => by
    have hsuper := h.node.access (.inr (by simp [hsig, hkind]))
    have hobject := ho.placed (p := .operand) (h.object hsuper)
    refine Expr.placed_apply hfn.extensionReference_placed ?_
    simp only [Expr.allPlaced, Expr.placed_simplifyObject, Bool.and_eq_true]
    exact ⟨Expr.placed_of_operand hobject, hextra.withTrace_placed⟩
  | .elem _ ho hx, h | .binary _ _ ho hx, h | .new ho hx, h => by
    obtain ⟨h₁, h₂⟩ := h.below.both
    exact Bool.and_eq_true_iff.2 ⟨ho.placed h₁, hx.placed h₂⟩
  | .indexer hsig hkind ho hx hfn, h => by
    obtain ⟨h₁, h₂⟩ := h.below.both
    have hobject := Expr.placed_of_head (q := .element) h₁.placed
      (h.node.index (by simp [hsig, hkind]))
    refine Expr.placed_extensionCallTyped hfn.extensionReference_placed
      (ho.placed (h₁.moved hobject)) ?_ ..
    simpa [Expr.allPlaced] using Expr.placed_of_operand (hx.placed h₂)
  | .call _ hcallee hargs, h | .curried _ _ hcallee hargs, h =>
    Bool.and_eq_true_iff.2 ⟨hcallee.placed h.below.both.1,
      hargs.placed { h with settled := h.below.both.2.settled }⟩
  | .fused _ _ hargs harg hfn, h => by
    obtain ⟨h₁, h₂⟩ := h.below.both
    refine Expr.placed_apply hfn.targetReference_placed ?_
    exact Bool.and_eq_true_iff.2 ⟨harg.placed (by simp) h₂.fst, hargs.placed h₁⟩
  | .extension _ hfn hargs, h =>
    Bool.and_eq_true_iff.2
      ⟨Expr.placed_of_operand hfn.extensionReference_placed, hargs.placed h⟩
  | .method hroute ho hargs hfn hextra, h => by
    obtain ⟨h₁, h₂⟩ := h.below.both
    have hsuper := h.node.route hroute
    simp only [CallRoute.exposes, Expr.accessed] at hsuper
    refine Expr.placed_extensionCallTyped hfn.extensionReference_placed
      (ho.placed (by simp) (h₁.object (by simp [hsuper]))) ?_ ..
    exact Expr.allPlaced_append.2 ⟨hargs.placed h₂, hextra.withTrace_placed⟩
  | .function _ he hes hfn hextra, h => by
    obtain ⟨h₁, h₂⟩ := h.below.snd.both
    refine Expr.placed_extensionCallTyped hfn.extensionReference_placed
      (he.placed (by simp) h₁) ?_ ..
    exact Expr.allPlaced_append.2 ⟨hes.placed h₂, hextra.withTrace_placed⟩
  | .pipe hroute he hes, h => by
    obtain ⟨h₁, h₂⟩ := h.below.snd.both
    have hspread := h.node.route hroute
    simp only [CallRoute.exposes, tail_cons, length_cons, any_cons,
      Bool.or_eq_false_iff, any_eq_false] at hspread
    refine hes.placed ?_ hspread.1 h₂
    -- Without stages the first argument takes the place of the call, else it becomes an argument.
    split
    next hlone =>
      have hseed := Expr.placed_of_element (q := .operand) h₁.placed (by simp_all)
      exact Expr.placed_of_operand (he.placed (by simp) (h₁.moved hseed))
    next => exact he.placed (by simp) h₁
  | .methodPipe hroute he hes, h => by
    obtain ⟨h₁, h₂⟩ := h.below.both
    have hspread := h.node.route hroute
    simp only [CallRoute.exposes, Expr.accessed, Bool.or_eq_false_iff, any_eq_false] at hspread
    have hseed := he.placed (p := .operand) (by simp) (h₁.object (by simp [hspread.1]))
    refine hes.placed ?_ hspread.2 h₂
    split <;> exact Expr.placed_of_operand hseed
  | .identity hroute he, h => by
    have harg := h.below.snd.fst
    have hspread := callRoute_identity_spread hroute
    exact he.placed (harg.moved (Expr.placed_of_element harg.placed hspread))
  | .remove _, _ => rfl
  | .derive _ he, _ => Expr.placed_of_operand ((Lower.deriveWithin_placed _ _ _ _).gives he)
  | .chain pins hroute hss, h => by
    -- Only an effect that is returned at the end leaves its argument list.
    have hlast := h.node.route hroute
    simp only [CallRoute.exposes, endsInSpread] at hlast
    have hout := hss.placed hlast h.below.snd.fst.below.fst.snd.below
    exact Expr.placed_of_operand (bodyValue_placed_iff.2
      (Stmt.allPlaced_append.2 ⟨Pin.allPlaced_stmts pins, hout⟩))
  | .pipeOperator _ hl hr, h => by
    obtain ⟨h₁, h₂⟩ := h.below.both
    have hseed := hl.placed (p := .element) (by simp)
      (h₁.moved (Expr.placed_of_operand h₁.placed))
    refine hr.placed hseed ?_ ⟨?_, ?_, h₂.settled⟩
    · simpa using Expr.not_isSpread_of_operand h₂.placed
    · simpa [Expr.allPlaced] using Expr.placed_of_operand h₂.placed
    · simpa [Expr.walks] using h₂.calm
  | .operator _ _ _ _ hl hr hfn hextra, h => by
    obtain ⟨h₁, h₂⟩ := h.below.both
    refine Expr.placed_extensionCallTyped hfn.declarationReference_placed
      (hl.placed (by simp) (h₁.moved (Expr.placed_of_operand h₁.placed))) ?_ ..
    exact Bool.and_eq_true_iff.2
      ⟨hr.placed (by simp) (h₂.moved (Expr.placed_of_operand h₂.placed)), hextra.withTrace_placed⟩
  | .unary he, h | .paren he, h | .void he, h => he.placed (p := .operand) h.below
  | .cond ht hy hn, h => by
    obtain ⟨h₁, h₂⟩ := h.below.both
    exact Bool.and_eq_true_iff.2
      ⟨Bool.and_eq_true_iff.2 ⟨ht.placed h₁.both.1, hy.placed h₁.both.2⟩, hn.placed h₂⟩
  | .spread he, h => by
    have hp := Bool.and_eq_true_iff.1 h.placed
    exact Bool.and_eq_true_iff.2 ⟨hp.1, he.placed (h.below.moved hp.2)⟩
  | .array hxs, h | .object hxs, h => hxs.placed h.below
  | .concise hps he, h => by
    obtain ⟨h₁, h₂⟩ := h.below.both
    exact Bool.and_eq_true_iff.2 ⟨Bool.and_eq_true_iff.2 ⟨hps.placed h₁.fst, rfl⟩, he.placed h₂⟩
  | .arrow hps hb _, h => by
    obtain ⟨h₁, h₂⟩ := h.below.fst.both
    exact Bool.and_eq_true_iff.2
      ⟨Bool.and_eq_true_iff.2 ⟨hps.placed h₁, hb.placed h₂⟩, h.below.snd.placed⟩
  | .func hps hb, h => by
    obtain ⟨h₁, h₂⟩ := h.below.both
    exact Bool.and_eq_true_iff.2 ⟨hps.placed h₁.right, hb.placed h₂⟩

theorem Expr.AllBecome.placed {env : Env} {es es' : List Expr} {hs : List Handover} :
    Expr.AllBecome env es es' hs →
      Fit env.compilation (Expr.allPlaced es) (Expr.walks (fun _ => true) es) hs →
      Expr.allPlaced es'
  | .nil, _ => rfl
  | .cons he hes, h => Bool.and_eq_true_iff.2 ⟨he.placed h.both.1, hes.placed h.both.2⟩

theorem Expr.Handed.placed {env : Env} {role : Role} {e e' : Expr} {hs : List Handover}
    {p : Place} : Expr.Handed env role e e' hs → p ≠ .head →
      Fit env.compilation (e.placed p) (e.walk fun _ => true) hs → e'.placed p
  | .mk wrapped he, hhead, h => by
    have hs := allSettled_cons.1 h.settled
    -- What is delayed becomes an operand, which a spread cannot be; but a spread is not lazy.
    refine thunkIf_placed hhead h.placed (fun q hq => he.placed ⟨hq, h.calm, hs.2⟩) fun hspread => ?_
    rw [thunkIf_inj.1 hs.1, Expr.lazy_of_spread hspread h.calm, Bool.and_false]

theorem Expr.AllHanded.placed {env : Env} {role : Role} {es es' : List Expr} {hs : List Handover} :
    Expr.AllHanded env role es es' hs →
      Fit env.compilation (Expr.allPlaced es) (Expr.walks (fun _ => true) es) hs →
      Expr.allPlaced es'
  | .nil, _ => rfl
  | .cons he hes, h =>
    Bool.and_eq_true_iff.2 ⟨he.placed (by simp) h.both.1, hes.placed h.both.2⟩

theorem Expr.KeepsArgs.placed {env : Env} {call : Expr} {args' : List Expr} {hs : List Handover}
    {p : Place} : Expr.KeepsArgs env call args' hs →
      Fit env.compilation (call.placed p) (call.walk fun _ => true) hs → Expr.allPlaced args'
  | .filled _ hargs hextra, h =>
    Expr.allPlaced_append.2 ⟨hargs.placed h.below.snd, hextra.complete_placed⟩
  | .unresolved _, h => h.below.snd.placed

theorem Expr.Seeded.placed {env : Env} {e e' : Expr} {stages : List Expr} {hs : List Handover}
    {p : Place} : Expr.Seeded env e stages e' hs → p ≠ .head →
      Fit env.compilation (e.placed p) (e.walk fun _ => true) hs → e'.placed p
  | .fused _ he, hhead, h => he.placed hhead h
  | .applied _ he, _, h => he.placed h

/-- A value that goes through a stage becomes a call. -/
theorem Expr.Piped.placed {env : Env} {acc out : Expr} {es : List Expr} {hs : List Handover}
    {p : Place} : Expr.Piped env acc es out hs →
      (if es.isEmpty then acc.placed p else acc.placed .element) → (∀ e ∈ es, ¬ e.isSpread) →
      Fit env.compilation (Expr.allPlaced es) (Expr.walks (fun _ => true) es) hs → out.placed p
  | .nil, hacc, _, _ => hacc
  | .cons he hes, hacc, hspread, h => by
    rw [forall_mem_cons] at hspread
    have hstage := he.placed hacc hspread.1 h.both.1
    refine hes.placed ?_ hspread.2 h.both.2
    split <;> exact Expr.placed_of_operand hstage

theorem Expr.Staged.placed {env : Env} {acc e acc' : Expr} {hs : List Handover} :
    Expr.Staged env acc e acc' hs → acc.placed .element → ¬ e.isSpread →
      Fit env.compilation (e.placed .element) (e.walk fun _ => true) hs → acc'.placed .operand
  | .fused _ hargs hfn, hacc, _, h =>
    Expr.placed_apply hfn.targetReference_placed
      (Bool.and_eq_true_iff.2 ⟨hacc, hargs.placed h.below.snd⟩)
  | .applied _ he, hacc, hspread, h => by
    have hfn := he.placed (p := .operand) (h.moved (Expr.placed_of_element h.placed hspread))
    exact Expr.placed_apply hfn (by simpa [Expr.allPlaced] using hacc)

theorem Property.Becomes.placed {env : Env} {x x' : Property} {hs : List Handover} :
    Property.Becomes env x x' hs → Fit env.compilation x.placed (x.walk fun _ => true) hs →
      x'.placed
  | .assign _ hk hv, h =>
    Bool.and_eq_true_iff.2 ⟨hk.placed h.below.both.1, hv.placed h.below.both.2⟩
  | .literal _ hv, h =>
    Bool.and_eq_true_iff.2 ⟨h.below.fst.placed, hv.placed h.below.snd⟩
  | .shorthand h, _ => (Lower.shorthand_placed _ _).gives h
  | .spread he, h => he.placed (p := .operand) h.below

theorem Property.AllBecome.placed {env : Env} {ps ps' : List Property} {hs : List Handover} :
    Property.AllBecome env ps ps' hs →
      Fit env.compilation (Property.allPlaced ps) (Property.walks (fun _ => true) ps) hs →
      Property.allPlaced ps'
  | .nil, _ => rfl
  | .cons hp hps, h => Bool.and_eq_true_iff.2 ⟨hp.placed h.both.1, hps.placed h.both.2⟩

theorem Param.AllBecome.placed {env : Env} {ps ps' : List Param} {hs : List Handover} :
    Param.AllBecome env ps ps' hs →
      Fit env.compilation (Param.allPlaced ps) (Param.walks (fun _ => true) ps) hs →
      Param.allPlaced ps'
  | .nil, _ => rfl
  | .cons he hps, h =>
    Bool.and_eq_true_iff.2 ⟨he.placed (p := .operand) h.both.1.below.right, hps.placed h.both.2⟩

theorem Block.Becomes.placed {env : Env} {b b' : Block} {hs : List Handover} :
    Block.Becomes env b b' hs → Fit env.compilation b.placed (b.walk fun _ => true) hs → b'.placed
  | .missing, _ => rfl
  | .mk pins hss, h =>
    Stmt.allPlaced_append.2 ⟨Pin.allPlaced_stmts _, Pin.allPlaced_place pins (hss.placed h.below)⟩

theorem Stmt.Becomes.placed {env : Env} {s s' : Stmt} {hs : List Handover} :
    Stmt.Becomes env s s' hs → Fit env.compilation s.placed (s.walk fun _ => true) hs → s'.placed
  | .missing, _ | .importDecl, _ | .exportDecl, _ => rfl
  | .block hb, h => hb.placed h
  | .expr he, h | .ret he, h | .throw he, h => he.placed (p := .operand) h.below
  | .cond he hy hn, h => by
    obtain ⟨h₁, h₂⟩ := h.below.both
    exact Bool.and_eq_true_iff.2
      ⟨Bool.and_eq_true_iff.2 ⟨he.placed h₁.both.1, hy.placed h₁.both.2⟩, hn.placed h₂⟩
  | .varDecl hds, h => hds.placed h.below
  | .funcDecl hx hy, h | .classDecl hx hy, h => by
    obtain ⟨h₁, h₂⟩ := h.below.both
    exact Bool.and_eq_true_iff.2 ⟨hx.placed h₁.right, hy.placed h₂⟩

theorem Stmt.AllBecome.placed {env : Env} {ss ss' : List Stmt} {hs : List Handover} :
    Stmt.AllBecome env ss ss' hs →
      Fit env.compilation (Stmt.allPlaced ss) (Stmt.walks (fun _ => true) ss) hs →
      Stmt.allPlaced ss'
  | .nil, _ => rfl
  | .cons hs hss, h => Bool.and_eq_true_iff.2 ⟨hs.placed h.both.1, hss.placed h.both.2⟩

theorem Declarator.AllBecome.placed {env : Env} {ds ds' : List Declarator} {hs : List Handover} :
    Declarator.AllBecome env ds ds' hs →
      Fit env.compilation (Declarator.allPlaced ds) (Declarator.walks (fun _ => true) ds) hs →
      Declarator.allPlaced ds'
  | .nil, _ => rfl
  | .cons he hds, h =>
    Bool.and_eq_true_iff.2 ⟨he.placed (p := .operand) h.both.1.below.right, hds.placed h.both.2⟩

theorem Member.Becomes.placed {env : Env} {m m' : Member} {hs : List Handover} :
    Member.Becomes env m m' hs → Fit env.compilation m.placed (m.walk fun _ => true) hs → m'.placed
  | .ctor hps hb, h =>
    Bool.and_eq_true_iff.2 ⟨hps.placed h.below.both.1, hb.placed h.below.both.2⟩
  | .method hps hb, h =>
    Bool.and_eq_true_iff.2 ⟨hps.placed h.below.both.1.right, hb.placed h.below.both.2⟩
  | .field he, h => he.placed (p := .operand) h.below.right

theorem Member.AllBecome.placed {env : Env} {ms ms' : List Member} {hs : List Handover} :
    Member.AllBecome env ms ms' hs →
      Fit env.compilation (Member.allPlaced ms) (Member.walks (fun _ => true) ms) hs →
      Member.allPlaced ms'
  | .nil, _ => rfl
  | .cons hm hms, h => Bool.and_eq_true_iff.2 ⟨hm.placed h.both.1, hms.placed h.both.2⟩

theorem Stmt.Chained.placed {env : Env} {m fm : Signature} {ss out : List Stmt} {settled : Bool}
    {hs : List Handover} : Stmt.Chained env m fm ss out settled hs →
      ss.getLast?.any (·.returnsSpread) = false →
      Fit env.compilation (Stmt.allPlaced ss) (Stmt.walks (fun _ => true) ss) hs →
      Stmt.allPlaced out
  | .nil, _, _ => rfl
  | .returned (e := e) hret hbound he, hlast, h => by
    have helement := Stmt.bound_placed hbound h.fst.placed
    have hspread : ¬ e.isSpread := by
      rw [← Stmt.returnsSpread_iff hret hbound]
      simpa using hlast
    have heffect := he.placed (p := .operand) ⟨Expr.placed_of_element helement hspread,
      Stmt.bound_calm hbound h.fst.calm, h.settled⟩
    exact Bool.and_eq_true_iff.2 ⟨heffect, rfl⟩
  | .bound pins hbind hbound hrest he _ hfn hextra hnext, hlast, h => by
    obtain ⟨hs₁, hs₂⟩ := allSettled_append.1 h.settled
    have hrest := hrest.placed (returnsSpread_tail hlast) { h.snd with settled := hs₁ }
    have heffect := he.placed ⟨Stmt.bound_placed hbound h.fst.placed,
      Stmt.bound_calm hbound h.fst.calm, hs₂⟩
    have hbody := Stmt.allPlaced_append.2 ⟨Pin.allPlaced_stmts pins, hrest⟩
    simp only [Stmt.allPlaced, Stmt.returning, Stmt.placed, Bool.and_true]
    refine Expr.placed_extensionCallTyped hfn.extensionReference_placed heffect ?_ ..
    exact Bool.and_eq_true_iff.2
      ⟨hnext ▸ (continuation_placed_iff _).2 hbody, hextra.withTrace_placed⟩
  | .kept pins _ hrest hkept, hlast, h => by
    obtain ⟨hs₁, hs₂⟩ := allSettled_append.1 h.settled
    simp only [cons_append, Stmt.allPlaced, Bool.and_eq_true, Stmt.allPlaced_append]
    exact ⟨hkept.placed { h.fst with settled := hs₂ }, Pin.allPlaced_stmts pins,
      hrest.placed (returnsSpread_tail hlast) { h.snd with settled := hs₁ }⟩

end

/-! ## What is exposed -/

theorem Expr.Becomes.of_super (h : Expr.Becomes env o o' hs) (ho : o.isSuper) :
    ¬ o'.placed .element := by
  cases o with
  | super i =>
    cases h
    simp [Expr.placed]
  | _ => cases ho

theorem Expr.Becomes.of_spread (h : Expr.Becomes env e e' hs) (he : e.isSpread) :
    ¬ e'.placed .operand ∧ ¬ e'.placed .head := by
  cases e with
  | spread i e =>
    cases h with
    | leaf hleaf => cases hleaf
    | spread => simp [Expr.placed]
  | _ => cases he

theorem Expr.Handed.of_super {role : Role} (h : Expr.Handed env role o o' hs) (ho : o.isSuper) :
    ¬ o'.placed .element := by
  obtain ⟨wrapped, h⟩ := h
  have hsuper := h.of_super ho
  cases wrapped with
  | false => exact hsuper
  | true =>
    exact fun hthunk => hsuper (Expr.placed_of_operand (Expr.placed_lambda_iff.1 hthunk))

theorem Expr.Seeded.of_super {stages : List Expr} (h : Expr.Seeded env o stages o' hs)
    (ho : o.isSuper) : ¬ o'.placed .element := by
  cases h with
  | fused _ h | applied _ h => exact h.of_super ho

/-- A stage that is a spread is called, and a value that is out of place stays so. -/
theorem Expr.Staged.exposed {acc acc' : Expr} (h : Expr.Staged env acc e acc' hs)
    (hbad : ¬ acc.placed .element ∨ e.isSpread) : ¬ acc'.placed .element := by
  intro hout
  cases h with
  | fused =>
    have hacc := (Expr.placed_apply_iff.1 hout).2
    simp only [Expr.allPlaced, Bool.and_eq_true] at hacc
    exact hbad.elim (· hacc.1) (nomatch ·)
  | applied _ he =>
    have hfn := Expr.placed_apply_iff.1 hout
    simp only [Expr.allPlaced, Bool.and_true] at hfn
    exact hbad.elim (· hfn.2) fun hspread => (he.of_spread hspread).2 hfn.1

theorem Expr.Piped.exposed {es : List Expr} {acc out : Expr} (h : Expr.Piped env acc es out hs)
    (hbad : ¬ acc.placed .element ∨ ∃ e ∈ es, e.isSpread) : ¬ out.placed .operand := by
  induction es generalizing acc hs with
  | nil =>
    cases h
    exact fun hout => hbad.elim (· (Expr.placed_of_operand hout)) (by simp)
  | cons e es ih =>
    cases h with
    | cons hstage hrest =>
      obtain hacc | ⟨x, hx, hspread⟩ := hbad
      · exact ih hrest (.inl (hstage.exposed (.inl hacc)))
      · obtain rfl | hx := mem_cons.1 hx
        · exact ih hrest (.inl (hstage.exposed (.inr hspread)))
        · exact ih hrest (.inr ⟨x, hx, hspread⟩)

theorem Stmt.returnsSpread_returned (h : s.returnsSpread) : s.isReturnBind ∧ ¬ s.isBind := by
  unfold Stmt.returnsSpread at h
  split at h
  · simp_all [Stmt.isReturnBind, Stmt.isBind, Expr.isBind]
  · cases h

/-- A spread that a Do body returns in the end stands alone. -/
theorem Stmt.Chained.exposed {m fm : Signature} {out : List Stmt} {settled : Bool}
    (h : Stmt.Chained env m fm ss out settled hs) (hlast : ss.getLast?.any (·.returnsSpread)) :
    ¬ Stmt.allPlaced out := by
  induction ss generalizing out settled hs with
  | nil => cases hlast
  | cons s ss ih =>
    rw [returnsSpread_cons_iff] at hlast
    cases h with
    | returned hret hbound he =>
      obtain ⟨-, hspread⟩ | hlast := hlast
      · have hspread := (Stmt.returnsSpread_iff hret hbound).1 hspread
        simp [Stmt.allPlaced, Stmt.returning, Stmt.placed, (he.of_spread hspread).1]
      · cases hlast
    | bound pins hbind hbound hrest he _ hfn hextra hnext =>
      obtain ⟨-, hspread⟩ | hlast := hlast
      · exact absurd hbind (Stmt.returnsSpread_returned hspread).2
      · intro hout
        simp only [Stmt.allPlaced, Stmt.returning, Stmt.placed, Bool.and_true] at hout
        have hnexts := (Expr.placed_extensionCallTyped_iff.1 hout).2.2
        simp only [Expr.allPlaced, hnext, Bool.and_eq_true, continuation_placed_iff,
          Stmt.allPlaced_append] at hnexts
        exact ih hrest hlast hnexts.1.2
    | kept pins hkept hrest =>
      obtain ⟨rfl, hspread⟩ | hlast := hlast
      · simp [(Stmt.returnsSpread_returned hspread).1] at hkept
      · simp only [cons_append, Stmt.allPlaced, Bool.and_eq_true, Stmt.allPlaced_append]
        exact fun h => ih hrest hlast h.2.2

/-- As an operand, an exposing site is lowered to something that is out of place. -/
theorem Expr.Becomes.exposed (h : Expr.Becomes env e e' hs) (he : e.exposes env.compilation) :
    ¬ e'.placed .operand := by
  cases h with
  | leaf hleaf => cases e <;> simp_all [Expr.exposes, Expr.isLeaf]
  | access hid hsig =>
    simp only [Expr.exposes, hid, decide_false, Bool.false_or, Bool.and_eq_true, Option.any_eq_true,
      decide_eq_true_eq] at he
    obtain ⟨-, s, hs, hkind⟩ := he
    exact absurd hkind (hsig s hs).2
  | identityAccess hid ho =>
    simp only [Expr.exposes, Bool.and_eq_true] at he
    exact fun hout => ho.of_super he.1 (Expr.placed_of_operand hout)
  | static hid hsig hkind =>
    simp [Expr.exposes, hid, hsig, hkind] at he
  | getter _ _ _ ho =>
    simp only [Expr.exposes, Bool.and_eq_true] at he
    intro hout
    have hobject := (Expr.placed_apply_iff.1 hout).2
    simp only [Expr.allPlaced, Expr.placed_simplifyObject, Bool.and_eq_true] at hobject
    exact ho.of_super he.1 hobject.1
  | elem hsig =>
    simp only [Expr.exposes, Bool.and_eq_true, Option.any_eq_true, decide_eq_true_eq] at he
    obtain ⟨-, s, hs, hkind⟩ := he
    exact absurd hkind (hsig s hs)
  | indexer _ _ ho =>
    simp only [Expr.exposes, Bool.and_eq_true] at he
    exact fun hout => ho.of_super he.1 (Expr.placed_extensionCallTyped_iff.1 hout).2.1
  | call hroute | curried hroute | fused hroute | extension hroute | function hroute
  | identity hroute | remove hroute | derive hroute | unresolved hroute =>
    simp [Expr.exposes, hroute, CallRoute.exposes] at he
  | method hroute ho =>
    simp only [Expr.exposes, hroute, CallRoute.exposes, Expr.accessed] at he
    exact fun hout => ho.of_super he (Expr.placed_extensionCallTyped_iff.1 hout).2.1
  | pipe hroute hseed hpiped =>
    simp only [Expr.exposes, hroute, CallRoute.exposes, tail_cons, length_cons,
      Bool.or_eq_true, Bool.and_eq_true, decide_eq_true_eq, any_eq_true] at he
    obtain hstage | ⟨hlone, x, hx, hspread⟩ := he
    · exact hpiped.exposed (.inr hstage)
    · obtain rfl := eq_nil_of_length_eq_zero (Nat.succ.inj hlone)
      obtain rfl := mem_singleton.1 hx
      cases hpiped
      cases hseed with
      | fused hfused => cases hfused
      | applied _ he => exact (he.of_spread hspread).1
  | methodPipe hroute hseed hpiped =>
    simp only [Expr.exposes, hroute, CallRoute.exposes, Expr.accessed, Bool.or_eq_true,
      any_eq_true] at he
    exact hpiped.exposed (he.imp_left hseed.of_super)
  | chain pins hroute hss =>
    simp only [Expr.exposes, hroute, CallRoute.exposes, endsInSpread] at he
    rw [bodyValue_placed_iff, Stmt.allPlaced_append]
    exact fun hout => hss.exposed he hout.2
  | _ => cases he

/-! ## Putting the file together -/

namespace Aliases

variable (as : Aliases)

theorem moveDeclarator_placed (token : Token) (exported : Bool) (kind : VarKind)
    {d : Declarator} (h : d.placed) : Stmt.allPlaced (as.moveDeclarator token exported kind d) := by
  obtain ⟨t, name, type, init⟩ := d
  have hinit (n : Option Ident) (x : Bool) :
      (Stmt.varDecl token x kind [.mk t n type init]).placed := by
    simpa [Stmt.placed, Declarator.allPlaced, Declarator.placed] using h
  rw [moveDeclarator]
  split
  · simpa [Stmt.allPlaced] using hinit name exported
  · simp only [Stmt.allPlaced, hinit, Bool.true_and]
    repeat' split
    all_goals rfl

theorem moveStmt_placed (h : s.placed) : Stmt.allPlaced (as.moveStmt s) := by
  cases s with
  | funcDecl t exported name ps result body | classDecl t exported name base ms =>
    rw [moveStmt]
    split
    · simpa [Stmt.allPlaced] using h
    · simp only [Stmt.placed] at h
      simp only [Stmt.allPlaced, Stmt.placed, h, Bool.true_and]
      split <;> rfl
  | varDecl t exported kind ds =>
    rw [moveStmt]
    split
    · rw [Stmt.allPlaced_iff]
      intro s hs
      obtain ⟨d, hd, hs⟩ := mem_flatMap.1 hs
      exact Stmt.allPlaced_iff.1 (as.moveDeclarator_placed t exported kind
        (Declarator.allPlaced_iff.1 h d hd)) s hs
    · simpa [Stmt.allPlaced] using h
  | _ => simpa [moveStmt, Stmt.allPlaced] using h

theorem moveAll_placed (h : Stmt.allPlaced ss) : Stmt.allPlaced (as.moveAll ss) := by
  rw [Stmt.allPlaced_iff]
  intro s hs
  obtain ⟨s', hs', hs⟩ := mem_flatMap.1 hs
  exact Stmt.allPlaced_iff.1 (as.moveStmt_placed (Stmt.allPlaced_iff.1 h s' hs')) s hs

end Aliases

theorem moveDeclarations_placed {as : Aliases} {pins : List Pin} {body : List Stmt}
    (h : moveDeclarations as (pins.map Pin.stmt) ss = some body) (hss : Stmt.allPlaced ss) :
    Stmt.allPlaced body := by
  obtain ⟨labels, rfl⟩ := moveDeclarations_eq h
  rw [relabel_placed, Renaming.references_placed, relabel_placed, Stmt.allPlaced_append]
  exact ⟨Pin.allPlaced_stmts pins, as.moveAll_placed hss⟩

theorem preamble_placed (env : Env) (u : Lowering) : Stmt.allPlaced (preamble env u) := by
  rw [preamble, Stmt.allPlaced_append, Stmt.allPlaced_iff, Stmt.allPlaced_iff]
  refine ⟨fun s hs => ?_, fun s hs => ?_⟩ <;>
  · obtain ⟨x, -, rfl⟩ := mem_map.1 hs
    rfl

namespace Session

/-- A well-placed file without lazy spreads and without exposing sites is lowered to a well-placed
one. Nothing less will do: as an operand, an exposing site is lowered to what is out of place. -/
theorem lower_placed (session : Session) (f : File) (hf : f.placed)
    (hlazy : ∀ e, .expr e ∈ (Node.file f).nodes → e.isSpread → e.lazy = false) :
    ((∀ e, .expr e ∈ (Node.file f).nodes → e.exposes session.compilation = false) →
      ∀ out, (session.lower f).1 = .lowered out → out.placed) ∧
    ∀ e u, e.exposes session.compilation →
      ¬ ((Lower.expr (session.env f) e).run u).1.placed .operand := by
  refine ⟨fun hexposes out hout => ?_, fun e u he => ?_⟩
  · obtain ⟨pins, u, hwalk, -⟩ := session.walk_eq f
    obtain ⟨hs, hbecome, hanswers⟩ := Lower.stmts_hands (session.env f) f.stmts u
    obtain ⟨body, hbody, hstmts⟩ := session.lower_eq f hout
    have hcalm : AllCalm session.compilation (Stmt.walks (fun _ => true) f.stmts) := by
      intro n hn
      cases n with
      | expr e =>
        have he : .expr e ∈ (Node.file f).nodes := mem_cons_of_mem _ hn
        exact ⟨hlazy e he, hexposes e he⟩
      | _ => trivial
    have hlowered := Pin.allPlaced_place pins (hbecome.placed ⟨hf, hcalm, hanswers.passed⟩)
    rw [← hwalk] at hlowered
    rw [File.placed, hstmts, Stmt.allPlaced_append]
    exact ⟨preamble_placed _ _, moveDeclarations_placed hbody hlowered⟩
  · obtain ⟨hs, hbecome, -⟩ := Lower.expr_hands (session.env f) e u
    exact hbecome.exposed he

/-- `pipe(...xs, f)` -/
def spreadSeed : File :=
  { stmts := [.expr {} (.call {} { intrinsic := some .pipe } (.ofName "pipe") []
      [.spread {} (.ofName "xs"), .ofName "f"])] }

/-- The first argument of a pipe may be a spread: it stays an argument. -/
theorem lower_placed_seed :
    spreadSeed.placed ∧
      (∀ e, .expr e ∈ (Node.file spreadSeed).nodes → e.isSpread → e.lazy = false) ∧
      (∀ e, .expr e ∈ (Node.file spreadSeed).nodes → e.exposes {} = false) ∧
      ∃ out : File, (({ compilation := {} } : Session).lower spreadSeed).1 = .lowered out ∧
        out.stmts = [.expr {} ((Expr.ofName "f").apply [.spread {} (.ofName "xs")])] ∧
        out.placed := by
  have hcalm : ∀ n ∈ (Node.file spreadSeed).nodes, n.Calm {} := by decide
  have hplaced := (lower_placed { compilation := {} } spreadSeed rfl fun e he => (hcalm _ he).1).1
    fun e he => (hcalm _ he).2
  exact ⟨rfl, fun e he => (hcalm _ he).1, fun e he => (hcalm _ he).2, _, rfl, rfl, hplaced _ rfl⟩

/-- `pipe(x, ...fs)` -/
def spreadStage : File :=
  { stmts := [.expr {} (.call {} { intrinsic := some .pipe } (.ofName "pipe") []
      [.ofName "x", .spread {} (.ofName "fs")])] }

/-- A stage that is a spread is called. -/
theorem spread_stage_called :
    spreadStage.placed ∧
      (∀ e, .expr e ∈ (Node.file spreadStage).nodes → e.isSpread → e.lazy = false) ∧
      ∃ out : File, (({ compilation := {} } : Session).lower spreadStage).1 = .lowered out ∧
        out.stmts = [.expr {} ((Expr.spread {} (.ofName "fs")).apply [.ofName "x"])] ∧
        ¬ out.placed := by
  refine ⟨rfl, fun e he hspread => ?_, _, rfl, rfl, by decide⟩
  have hnodes : (Node.file spreadStage).nodes =
      [.file _, .stmt _, .expr _, .expr _, .expr _, .expr _, .expr _] := rfl
  simp only [hnodes, mem_cons, Node.expr.injEq, reduceCtorEq, false_or, not_mem_nil,
    or_false] at he
  obtain rfl | rfl | rfl | rfl | rfl := he <;> rfl

end Session

end ExtensionLowering
