import ExtensionLowering.Alias.Reference
import ExtensionLowering.Proofs.Tree.Spots
/-!
# Renaming through a tree

Renaming goes through a tree with the names that it takes for bound, and changes no scope. So what
it does to a tree can be read off the spots of it: a relation between the spots before and after
holds of every tree if lists keep it and it holds of the references.

## Main definitions

* `Renaming.Law`: what is asked of such a relation.

## Main results

* `Renaming.Law.stmts_rel`: a law holds of all statements.
-/
namespace ExtensionLowering

namespace Renaming

variable (r : Renaming) (bound : List String)

/-! ## Scopes stay -/

theorem paramNames_eq (ps : List Param) : paramNames ps = Param.bound ps := by
  simp [paramNames, Param.bound, namesOf, List.filterMap_map]

theorem bound_params (ps : List Param) : Param.bound (params r bound ps) = Param.bound ps := by
  have hnames : (params r bound ps).map (·.name) = ps.map (·.name) := by
    induction ps with
    | nil => rfl
    | cons p ps ih =>
      rw [params, List.map_cons, List.map_cons, ih]
      cases p
      rfl
  rw [Param.bound, Param.bound, hnames]

theorem names_declarators (ds : List Declarator) :
    (declarators r bound ds).map (·.name) = ds.map (·.name) := by
  induction ds with
  | nil => rfl
  | cons d ds ih =>
    rw [declarators, List.map_cons, List.map_cons, ih]
    cases d
    rfl

theorem lexical_stmt (s : Stmt) : (stmt r bound s).lexical = s.lexical := by
  cases s with
  | varDecl t x k ds => cases k <;> simp [stmt, Stmt.lexical, names_declarators]
  | _ => rfl

theorem lexical_stmts (ss : List Stmt) :
    (stmts r bound ss).flatMap Stmt.lexical = ss.flatMap Stmt.lexical := by
  induction ss with
  | nil => rfl
  | cons s ss ih => simp [stmts, lexical_stmt, ih]

section

variable (r : Renaming)

mutual

theorem hoisted_block : ∀ (bound : List String) (b : Block), (block r bound b).hoisted = b.hoisted
  | _, .missing => rfl
  | bound, .mk _ _ ss => hoisted_stmts (declaredNames ss ++ bound) ss

theorem hoisted_stmt : ∀ (bound : List String) (s : Stmt), (stmt r bound s).hoisted = s.hoisted
  | bound, .block b => hoisted_block bound b
  | bound, .cond _ _ y n => by
    simp [stmt, Stmt.hoisted, hoisted_stmt bound y, hoisted_stmt bound n]
  | bound, .varDecl _ _ k ds => by
    cases k <;> simp [stmt, Stmt.hoisted, names_declarators]
  | _, .missing | _, .expr .. | _, .ret .. | _, .throw .. | _, .funcDecl .. | _, .classDecl ..
  | _, .importDecl .. | _, .exportDecl .. => rfl

theorem hoisted_stmts :
    ∀ (bound : List String) (ss : List Stmt),
      Stmt.allHoisted (stmts r bound ss) = Stmt.allHoisted ss
  | _, [] => rfl
  | bound, s :: ss => by
    simp [stmts, Stmt.allHoisted, hoisted_stmt bound s, hoisted_stmts bound ss]

end

end

theorem scope_stmts (body : Bool) (ss : List Stmt) :
    Stmt.scope body (stmts r bound ss) = Stmt.scope body ss := by
  rw [Stmt.scope, Stmt.scope, lexical_stmts, hoisted_stmts]

theorem block_isMissing (b : Block) : (block r bound b).isMissing = b.isMissing := by
  cases b <;> rfl

theorem expr_isLiteralKey (e : Expr) : (expr r bound e).isLiteralKey = e.isLiteralKey := by
  cases e <;> rfl

/-! ## Laws -/

/-- A relation between the spots before and after renaming that can be carried through a tree, with
what it needs to know on the way. -/
structure Law (r : Renaming) where
  Rel : List Spot → List Spot → Prop
  /-- How the scopes of a place and the names taken for bound there go together. -/
  Covers : Scopes → List String → Prop
  /-- What the scopes around a block say about its `var` names. -/
  Hoists : Scopes → List String → Prop
  /-- The condition on the spots of a tree. -/
  Clear : List Spot → Prop
  /-- Is the relation one of trees without `var`? -/
  free : Prop
  clear_append {ps qs : List Spot} : Clear (ps ++ qs) → Clear ps ∧ Clear qs
  hoists_append {sc : Scopes} {xs ys : List String} :
    Hoists sc (xs ++ ys) → Hoists sc xs ∧ Hoists sc ys
  nil : Rel [] []
  append {ps ps' qs qs' : List Spot} : Rel ps ps' → Rel qs qs' → Rel (ps ++ qs) (ps' ++ qs')
  kept {role : SpotRole} (hrole : role = .binder ∨ role = .label) (sc : Scopes) (ids : List Ident) :
    Rel (spotsOf role sc ids) (spotsOf role sc ids)
  ofIdent {sc : Scopes} {bound : List String} (h : Covers sc bound) (id : Ident) :
    Rel [⟨id, .reference, sc⟩] [⟨r.ident bound id, .reference, sc⟩]
  ofShorthand {sc : Scopes} {bound : List String} (h : Covers sc bound) (t : Token)
    (name : Option Ident) :
    Rel ((Property.shorthand t name).spots sc) ((r.shorthand bound t name).spots sc)
  inParams {sc sc' : Scopes} {bound : List String} {ps : List Param} (h : Covers sc bound)
    (hclear : Clear (Param.allSpots sc' ps)) :
    Covers (Param.bound ps :: sc) (paramNames ps ++ bound)
  inSelf {sc sc' : Scopes} {bound : List String} {self : Option Ident} (h : Covers sc bound)
    (hclear : Clear (spotsOf .binder sc' self.toList)) :
    Covers (namesOf [self] :: sc) (self.toList.map (·.name) ++ bound)
  inBlock {sc sc' : Scopes} {bound : List String} {body : Bool} {ss : List Stmt} (h : Covers sc bound)
    (hclear : Clear (Stmt.allSpots sc' ss)) (hfree : free → Stmt.AllVarFree ss)
    (hvars : body = false → Hoists sc (Stmt.allHoisted ss)) :
    Covers (Stmt.scope body ss :: sc) (declaredNames ss ++ bound) ∧
      Hoists (Stmt.scope body ss :: sc) (Stmt.allHoisted ss)

namespace Law

variable {r : Renaming} {L : Law r} {sc : Scopes} {bound : List String} {ps qs : List Spot}
  {v w : Prop}

/-- A place where the law can be used on a part of a tree with the spots `ps`, which is without
`var` if `v` holds. -/
structure Fits (L : Law r) (sc : Scopes) (bound : List String) (ps : List Spot) (v : Prop) :
    Prop where
  covers : L.Covers sc bound
  clear : L.Clear ps
  free : L.free → v

namespace Fits

theorem mono (h : L.Fits sc bound ps v) (hw : v → w) : L.Fits sc bound ps w :=
  ⟨h.covers, h.clear, fun hf => hw (h.free hf)⟩

theorem fst (h : L.Fits sc bound (ps ++ qs) v) : L.Fits sc bound ps v :=
  ⟨h.covers, (L.clear_append h.clear).1, h.free⟩

theorem snd (h : L.Fits sc bound (ps ++ qs) v) : L.Fits sc bound qs v :=
  ⟨h.covers, (L.clear_append h.clear).2, h.free⟩

theorem left (h : L.Fits sc bound (ps ++ qs) (v ∧ w)) : L.Fits sc bound ps v :=
  h.fst.mono And.left

theorem right (h : L.Fits sc bound (ps ++ qs) (v ∧ w)) : L.Fits sc bound qs w :=
  h.snd.mono And.right

theorem params {sc' : Scopes} {xs : List Param} (h : L.Fits sc bound ps v)
    (hclear : L.Clear (Param.allSpots sc' xs)) :
    L.Fits (Param.bound xs :: sc) (paramNames xs ++ bound) ps v :=
  ⟨L.inParams h.covers hclear, h.clear, h.free⟩

theorem self {sc' : Scopes} {id : Option Ident} (h : L.Fits sc bound ps v)
    (hclear : L.Clear (spotsOf .binder sc' id.toList)) :
    L.Fits (namesOf [id] :: sc) (id.toList.map (·.name) ++ bound) ps v :=
  ⟨L.inSelf h.covers hclear, h.clear, h.free⟩

end Fits

variable (L)

mutual

theorem expr_rel : ∀ (e : Expr) {sc : Scopes} {bound : List String},
    L.Fits sc bound (e.spots sc) e.VarFree → L.Rel (e.spots sc) ((expr r bound e).spots sc)
  | .missing, _, _, _ | .number .., _, _, _ | .string .., _, _, _ | .bool .., _, _, _
  | .this _, _, _, _ | .super _, _, _, _ => L.nil
  | .ident id, _, _, h => L.ofIdent h.covers id
  | .prop _ _ o _ _, _, _, h => L.append (expr_rel o h.fst) (L.kept (.inr rfl) _ _)
  | .elem _ _ o x, _, _, h | .binary _ _ o _ x, _, _, h =>
    L.append (expr_rel o h.left) (expr_rel x h.right)
  | .call _ _ c _ as, _, _, h | .new _ c _ as, _, _, h =>
    L.append (expr_rel c h.left) (exprs_rel as h.right)
  | .unary _ _ e, _, _, h | .paren _ e, _, _, h | .void _ e, _, _, h | .spread _ e, _, _, h =>
    expr_rel e h
  | .cond _ c t e, _, _, h =>
    L.append (L.append (expr_rel c h.fst.left) (expr_rel t (h.fst.right.mono And.left)))
      (expr_rel e (h.right.mono And.right))
  | .array _ es, _, _, h => exprs_rel es h
  | .object _ ps, _, _, h => properties_rel ps h
  | .arrow _ ps b e, _, _, h => by
    have hin := h.params h.fst.fst.clear
    rw [expr, Expr.spots, Expr.spots, bound_params, block_isMissing]
    refine L.append (L.append (params_rel ps hin.fst.left)
      (block_rel b true (hin.fst.right.mono And.left) (by simp))) ?_
    have he := hin.right.mono And.right
    cases hb : b.isMissing with
    | true =>
      rw [hb] at he
      exact expr_rel e he
    | false => exact L.kept (.inr rfl) _ _
  | .func _ self ps b, _, _, h => by
    have hin := (h.self h.fst.fst.clear).params h.fst.snd.clear
    rw [← List.append_assoc] at hin
    rw [expr, Expr.spots, Expr.spots, bound_params]
    exact L.append (L.append (L.kept (.inl rfl) _ _) (params_rel ps hin.left.snd))
      (block_rel b true hin.right (by simp))

theorem exprs_rel : ∀ (es : List Expr) {sc : Scopes} {bound : List String},
    L.Fits sc bound (Expr.allSpots sc es) (Expr.AllVarFree es) →
      L.Rel (Expr.allSpots sc es) (Expr.allSpots sc (exprs r bound es))
  | [], _, _, _ => L.nil
  | e :: es, _, _, h => L.append (expr_rel e h.left) (exprs_rel es h.right)

theorem properties_rel : ∀ (ps : List Property) {sc : Scopes} {bound : List String},
    L.Fits sc bound (Property.allSpots sc ps) (Property.AllVarFree ps) →
      L.Rel (Property.allSpots sc ps) (Property.allSpots sc (properties r bound ps))
  | [], _, _, _ => L.nil
  | p :: ps, _, _, h => L.append (property_rel p h.left) (properties_rel ps h.right)

theorem property_rel : ∀ (p : Property) {sc : Scopes} {bound : List String},
    L.Fits sc bound (p.spots sc) p.VarFree → L.Rel (p.spots sc) ((property r bound p).spots sc)
  | .assign _ k v, _, _, h => by
    have hkey := h.left
    rw [property, Property.spots, Property.spots]
    refine L.append ?_ (expr_rel v h.right)
    cases hk : k.isLiteralKey with
    | true =>
      simp only [if_true, hk]
      exact L.kept (.inr rfl) _ _
    | false =>
      simp only [Bool.false_eq_true, if_false, expr_isLiteralKey, hk] at hkey ⊢
      exact expr_rel k hkey
  | .shorthand t name, _, _, h => L.ofShorthand h.covers t name
  | .spread _ e, _, _, h => expr_rel e h

theorem params_rel : ∀ (ps : List Param) {sc : Scopes} {bound : List String},
    L.Fits sc bound (Param.allSpots sc ps) (Param.AllVarFree ps) →
      L.Rel (Param.allSpots sc ps) (Param.allSpots sc (params r bound ps))
  | [], _, _, _ => L.nil
  | .mk _ _ _ _ _ e :: ps, _, _, h =>
    L.append (L.append (L.kept (.inl rfl) _ _) (expr_rel e h.left.snd)) (params_rel ps h.right)

theorem block_rel : ∀ (b : Block) (body : Bool) {sc : Scopes} {bound : List String},
    L.Fits sc bound (b.spots sc body) b.VarFree → (body = false → L.Hoists sc b.hoisted) →
      L.Rel (b.spots sc body) ((block r bound b).spots sc body)
  | .missing, _, _, _, _, _ => L.nil
  | .mk _ _ ss, body, _, _, h, hvars => by
    obtain ⟨hin, hhoists⟩ := L.inBlock h.covers h.clear h.free hvars
    rw [block, Block.spots, Block.spots, scope_stmts]
    exact stmts_rel ss ⟨hin, h.clear, h.free⟩ hhoists

/-- A law holds of all statements. -/
theorem stmts_rel : ∀ (ss : List Stmt) {sc : Scopes} {bound : List String},
    L.Fits sc bound (Stmt.allSpots sc ss) (Stmt.AllVarFree ss) → L.Hoists sc (Stmt.allHoisted ss) →
      L.Rel (Stmt.allSpots sc ss) (Stmt.allSpots sc (stmts r bound ss))
  | [], _, _, _, _ => L.nil
  | s :: ss, _, _, h, hvars =>
    L.append (stmt_rel s h.left (L.hoists_append hvars).1)
      (stmts_rel ss h.right (L.hoists_append hvars).2)

theorem stmt_rel : ∀ (s : Stmt) {sc : Scopes} {bound : List String},
    L.Fits sc bound (s.spots sc) s.VarFree → L.Hoists sc s.hoisted →
      L.Rel (s.spots sc) ((stmt r bound s).spots sc)
  | .missing, _, _, _, _ => L.nil
  | .block b, _, _, h, hvars => block_rel b false h fun _ => hvars
  | .expr _ e, _, _, h, _ | .ret _ e, _, _, h, _ | .throw _ e, _, _, h, _ => expr_rel e h
  | .cond _ c y n, _, _, h, hvars =>
    L.append (L.append (expr_rel c h.fst.left)
      (stmt_rel y (h.fst.right.mono And.left) (L.hoists_append hvars).1))
      (stmt_rel n (h.right.mono And.right) (L.hoists_append hvars).2)
  | .varDecl _ _ _ ds, _, _, h, _ => declarators_rel ds (h.mono And.right)
  | .funcDecl _ _ _ ps _ b, _, _, h, _ => by
    have hin := h.params h.fst.snd.clear
    rw [stmt, Stmt.spots, Stmt.spots, bound_params]
    exact L.append (L.append (L.kept (.inl rfl) _ _) (params_rel ps hin.left.snd))
      (block_rel b true hin.right (by simp))
  | .classDecl _ _ _ base ms, _, _, h, _ =>
    L.append (L.append (L.kept (.inl rfl) _ _) (expr_rel base h.left.snd)) (members_rel ms h.right)
  | .importDecl .., _, _, _, _ | .exportDecl .., _, _, _, _ => L.kept (.inr rfl) _ _

theorem declarators_rel : ∀ (ds : List Declarator) {sc : Scopes} {bound : List String},
    L.Fits sc bound (Declarator.allSpots sc ds) (Declarator.AllVarFree ds) →
      L.Rel (Declarator.allSpots sc ds) (Declarator.allSpots sc (declarators r bound ds))
  | [], _, _, _ => L.nil
  | .mk _ _ _ e :: ds, _, _, h =>
    L.append (L.append (L.kept (.inl rfl) _ _) (expr_rel e h.left.snd)) (declarators_rel ds h.right)

theorem members_rel : ∀ (ms : List Member) {sc : Scopes} {bound : List String},
    L.Fits sc bound (Member.allSpots sc ms) (Member.AllVarFree ms) →
      L.Rel (Member.allSpots sc ms) (Member.allSpots sc (members r bound ms))
  | [], _, _, _ => L.nil
  | m :: ms, _, _, h => L.append (member_rel m h.left) (members_rel ms h.right)

theorem member_rel : ∀ (m : Member) {sc : Scopes} {bound : List String},
    L.Fits sc bound (m.spots sc) m.VarFree → L.Rel (m.spots sc) ((member r bound m).spots sc)
  | .ctor _ ps b, _, _, h => by
    have hin := h.params h.fst.clear
    rw [member, Member.spots, Member.spots, bound_params]
    exact L.append (params_rel ps hin.left) (block_rel b true hin.right (by simp))
  | .method _ _ _ ps b, _, _, h => by
    have hin := h.params h.fst.snd.clear
    rw [member, Member.spots, Member.spots, bound_params]
    exact L.append (L.append (L.kept (.inr rfl) _ _) (params_rel ps hin.left.snd))
      (block_rel b true hin.right (by simp))
  | .field _ _ _ _ e, _, _, h => L.append (L.kept (.inr rfl) _ _) (expr_rel e h.snd)

end

end Law

end Renaming

end ExtensionLowering
