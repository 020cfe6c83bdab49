import ExtensionLowering.Alias.Reference
import ExtensionLowering.Proofs.Tree.Idents
/-!
# Where spreads and `super` stand

A spread is an element of a list: an argument of a call or of `new`, or an element of an array.
`super` is a head: what is called, or what is accessed. `placed` checks both in a whole tree.
Operands are the strictest place, so what is well placed there is well placed anywhere. Changing
identifiers and renaming references keep a tree well placed.
-/
namespace ExtensionLowering

/-- The part that an expression plays where it stands. -/
inductive Place where
  | operand
  /-- An argument, or an element of an array. -/
  | element
  /-- A callee, or the object of an access. -/
  | head
  deriving Repr, DecidableEq

mutual

/-- Do spreads stand in lists only, and `super` in head position only? -/
def Expr.placed (p : Place) : Expr → Bool
  | .missing | .ident _ | .number .. | .string .. | .bool .. | .this _ => true
  | .super _ => p = .head
  | .spread _ e => p = .element && e.placed .operand
  | .prop _ _ o _ _ => o.placed .head
  | .elem _ _ o x => o.placed .head && x.placed .operand
  | .call _ _ c _ as | .new _ c _ as => c.placed .head && Expr.allPlaced as
  | .binary _ _ l _ r => l.placed .operand && r.placed .operand
  | .unary _ _ e | .paren _ e | .void _ e => e.placed .operand
  | .cond _ c t e => c.placed .operand && t.placed .operand && e.placed .operand
  | .array _ es => Expr.allPlaced es
  | .object _ ps => Property.allPlaced ps
  | .arrow _ ps b e => Param.allPlaced ps && b.placed && e.placed .operand
  | .func _ _ ps b => Param.allPlaced ps && b.placed

/-- The elements of a list. -/
def Expr.allPlaced : List Expr → Bool
  | [] => true
  | e :: es => e.placed .element && Expr.allPlaced es

def Property.placed : Property → Bool
  | .assign _ k v => k.placed .operand && v.placed .operand
  | .shorthand .. => true
  | .spread _ e => e.placed .operand

def Property.allPlaced : List Property → Bool
  | [] => true
  | p :: ps => p.placed && Property.allPlaced ps

def Param.placed : Param → Bool
  | .mk _ _ _ _ _ init => init.placed .operand

def Param.allPlaced : List Param → Bool
  | [] => true
  | p :: ps => p.placed && Param.allPlaced ps

def Block.placed : Block → Bool
  | .missing => true
  | .mk _ _ ss => Stmt.allPlaced ss

def Stmt.placed : Stmt → Bool
  | .missing | .importDecl .. | .exportDecl .. => true
  | .block b => b.placed
  | .expr _ e | .ret _ e | .throw _ e => e.placed .operand
  | .cond _ c y n => c.placed .operand && y.placed && n.placed
  | .varDecl _ _ _ ds => Declarator.allPlaced ds
  | .funcDecl _ _ _ ps _ b => Param.allPlaced ps && b.placed
  | .classDecl _ _ _ base ms => base.placed .operand && Member.allPlaced ms

def Stmt.allPlaced : List Stmt → Bool
  | [] => true
  | s :: ss => s.placed && Stmt.allPlaced ss

def Declarator.placed : Declarator → Bool
  | .mk _ _ _ init => init.placed .operand

def Declarator.allPlaced : List Declarator → Bool
  | [] => true
  | d :: ds => d.placed && Declarator.allPlaced ds

def Member.placed : Member → Bool
  | .ctor _ ps b | .method _ _ _ ps b => Param.allPlaced ps && b.placed
  | .field _ _ _ _ init => init.placed .operand

def Member.allPlaced : List Member → Bool
  | [] => true
  | m :: ms => m.placed && Member.allPlaced ms

end

def File.placed (f : File) : Bool :=
  Stmt.allPlaced f.stmts

/-! ## Lists -/

attribute [local simp] Expr.placed Property.placed Param.placed Block.placed Stmt.placed
  Declarator.placed Member.placed Expr.allPlaced Property.allPlaced Param.allPlaced Stmt.allPlaced
  Declarator.allPlaced Member.allPlaced

theorem Expr.allPlaced_iff {es : List Expr} : Expr.allPlaced es ↔ ∀ e ∈ es, e.placed .element := by
  induction es with
  | nil => simp
  | cons e es ih => simp [ih]

theorem Property.allPlaced_iff {ps : List Property} :
    Property.allPlaced ps ↔ ∀ p ∈ ps, p.placed := by
  induction ps with
  | nil => simp
  | cons p ps ih => simp [ih]

theorem Stmt.allPlaced_iff {ss : List Stmt} : Stmt.allPlaced ss ↔ ∀ s ∈ ss, s.placed := by
  induction ss with
  | nil => simp
  | cons s ss ih => simp [ih]

theorem Declarator.allPlaced_iff {ds : List Declarator} :
    Declarator.allPlaced ds ↔ ∀ d ∈ ds, d.placed := by
  induction ds with
  | nil => simp
  | cons d ds ih => simp [ih]

theorem Stmt.allPlaced_append {ss ss' : List Stmt} :
    Stmt.allPlaced (ss ++ ss') ↔ Stmt.allPlaced ss ∧ Stmt.allPlaced ss' := by
  simp only [Stmt.allPlaced_iff, List.forall_mem_append]

theorem Expr.allPlaced_append {es es' : List Expr} :
    Expr.allPlaced (es ++ es') ↔ Expr.allPlaced es ∧ Expr.allPlaced es' := by
  simp only [Expr.allPlaced_iff, List.forall_mem_append]

/-! ## Places -/

namespace Expr

variable {e : Expr} {p q : Place}

/-- The place matters only to spreads and `super`. -/
theorem placed_of_ordinary (h : e.placed p) (hspread : ¬ e.isSpread) (hsuper : ¬ e.isSuper) :
    e.placed q := by
  cases e with
  | spread => exact absurd rfl hspread
  | super => exact absurd rfl hsuper
  | _ => exact h

theorem placed_of_operand (h : e.placed .operand) : e.placed q := by
  cases e with
  | spread | super => simp [placed] at h
  | _ => exact h

theorem allPlaced_of_operand {es : List Expr} (h : ∀ e ∈ es, e.placed .operand) : allPlaced es :=
  allPlaced_iff.2 fun e he => placed_of_operand (h e he)

theorem not_isSpread_of_operand (h : e.placed .operand) : ¬ e.isSpread := by
  intro hspread
  cases e with
  | spread => simp [placed] at h
  | _ => cases hspread

/-- An argument that is no spread could be an operand. -/
theorem placed_of_element (h : e.placed .element) (hspread : ¬ e.isSpread) : e.placed q := by
  refine placed_of_ordinary h hspread fun hsuper => ?_
  cases e with
  | super => simp [placed] at h
  | _ => cases hsuper

/-- A head other than `super` could be an operand. -/
theorem placed_of_head (h : e.placed .head) (hsuper : ¬ e.isSuper) : e.placed q := by
  refine placed_of_ordinary h (fun hspread => ?_) hsuper
  cases e with
  | spread => simp [placed] at h
  | _ => cases hspread

end Expr

/-! ## Changing identifiers -/

section

variable (f : Ident → Ident)

attribute [local simp] Expr.mapIdents Property.mapIdents Param.mapIdents Block.mapIdents
  Stmt.mapIdents Declarator.mapIdents Member.mapIdents Expr.mapAll Property.mapAll Param.mapAll
  Stmt.mapAll Declarator.mapAll Member.mapAll

mutual

theorem Expr.placed_mapIdents : ∀ (e : Expr) (p : Place), (e.mapIdents f).placed p = e.placed p
  | .missing, _ | .ident _, _ | .number .., _ | .string .., _ | .bool .., _ | .this _, _
  | .super _, _ => rfl
  | .prop _ _ o _ _, _ => by simp [o.placed_mapIdents]
  | .elem _ _ o x, _ | .binary _ _ o _ x, _ => by simp [o.placed_mapIdents, x.placed_mapIdents]
  | .call _ _ c _ as, _ | .new _ c _ as, _ => by simp [c.placed_mapIdents, Expr.allPlaced_mapAll as]
  | .unary _ _ e, _ | .paren _ e, _ | .void _ e, _ | .spread _ e, _ => by simp [e.placed_mapIdents]
  | .cond _ c t e, _ => by simp [c.placed_mapIdents, t.placed_mapIdents, e.placed_mapIdents]
  | .array _ es, _ => by simp [Expr.allPlaced_mapAll es]
  | .object _ ps, _ => by simp [Property.allPlaced_mapAll ps]
  | .arrow _ ps b e, _ => by
    simp [Param.allPlaced_mapAll ps, b.placed_mapIdents, e.placed_mapIdents]
  | .func _ _ ps b, _ => by simp [Param.allPlaced_mapAll ps, b.placed_mapIdents]

theorem Expr.allPlaced_mapAll :
    ∀ es : List Expr, Expr.allPlaced (Expr.mapAll f es) = Expr.allPlaced es
  | [] => rfl
  | e :: es => by simp [e.placed_mapIdents, Expr.allPlaced_mapAll es]

theorem Property.placed_mapIdents : ∀ p : Property, (p.mapIdents f).placed = p.placed
  | .assign _ k v => by simp [k.placed_mapIdents, v.placed_mapIdents]
  | .shorthand .. => rfl
  | .spread _ e => by simp [e.placed_mapIdents]

theorem Property.allPlaced_mapAll :
    ∀ ps : List Property, Property.allPlaced (Property.mapAll f ps) = Property.allPlaced ps
  | [] => rfl
  | p :: ps => by simp [p.placed_mapIdents, Property.allPlaced_mapAll ps]

theorem Param.allPlaced_mapAll :
    ∀ ps : List Param, Param.allPlaced (Param.mapAll f ps) = Param.allPlaced ps
  | [] => rfl
  | .mk _ _ _ _ _ init :: ps => by simp [init.placed_mapIdents, Param.allPlaced_mapAll ps]

theorem Block.placed_mapIdents : ∀ b : Block, (b.mapIdents f).placed = b.placed
  | .missing => rfl
  | .mk _ _ ss => by simp [Stmt.allPlaced_mapAll ss]

theorem Stmt.placed_mapIdents : ∀ s : Stmt, (s.mapIdents f).placed = s.placed
  | .missing | .importDecl .. | .exportDecl .. => rfl
  | .block b => by simp [b.placed_mapIdents]
  | .expr _ e | .ret _ e | .throw _ e => by simp [e.placed_mapIdents]
  | .cond _ c y n => by simp [c.placed_mapIdents, y.placed_mapIdents, n.placed_mapIdents]
  | .varDecl _ _ _ ds => by simp [Declarator.allPlaced_mapAll ds]
  | .funcDecl _ _ _ ps _ b => by simp [Param.allPlaced_mapAll ps, b.placed_mapIdents]
  | .classDecl _ _ _ base ms => by simp [base.placed_mapIdents, Member.allPlaced_mapAll ms]

theorem Stmt.allPlaced_mapAll :
    ∀ ss : List Stmt, Stmt.allPlaced (Stmt.mapAll f ss) = Stmt.allPlaced ss
  | [] => rfl
  | s :: ss => by simp [s.placed_mapIdents, Stmt.allPlaced_mapAll ss]

theorem Declarator.allPlaced_mapAll :
    ∀ ds : List Declarator, Declarator.allPlaced (Declarator.mapAll f ds) = Declarator.allPlaced ds
  | [] => rfl
  | .mk _ _ _ init :: ds => by simp [init.placed_mapIdents, Declarator.allPlaced_mapAll ds]

theorem Member.placed_mapIdents : ∀ m : Member, (m.mapIdents f).placed = m.placed
  | .ctor _ ps b | .method _ _ _ ps b => by simp [Param.allPlaced_mapAll ps, b.placed_mapIdents]
  | .field _ _ _ _ init => by simp [init.placed_mapIdents]

theorem Member.allPlaced_mapAll :
    ∀ ms : List Member, Member.allPlaced (Member.mapAll f ms) = Member.allPlaced ms
  | [] => rfl
  | m :: ms => by simp [m.placed_mapIdents, Member.allPlaced_mapAll ms]

end

end

theorem relabel_placed (labels : List (Nat × String)) (ss : List Stmt) :
    Stmt.allPlaced (relabel labels ss) = Stmt.allPlaced ss := by
  unfold relabel
  split
  · rfl
  · exact Stmt.allPlaced_mapAll _ ss

/-! ## Renaming references -/

namespace Renaming

variable (r : Renaming)

theorem placed_shorthand (bound : List String) (t : Token) (name : Option Ident) :
    (r.shorthand bound t name).placed := by
  unfold shorthand
  split <;> rfl

attribute [local simp] expr exprs property properties param params block stmt stmts declarator
  declarators member members

mutual

theorem placed_expr : ∀ (e : Expr) (bound : List String) (p : Place),
    (r.expr bound e).placed p = e.placed p
  | .missing, _, _ | .ident _, _, _ | .number .., _, _ | .string .., _, _ | .bool .., _, _
  | .this _, _, _ | .super _, _, _ => rfl
  | .prop _ _ o _ _, _, _ => by simp [placed_expr o]
  | .elem _ _ o x, _, _ | .binary _ _ o _ x, _, _ => by simp [placed_expr o, placed_expr x]
  | .call _ _ c _ as, _, _ | .new _ c _ as, _, _ => by simp [placed_expr c, allPlaced_exprs as]
  | .unary _ _ e, _, _ | .paren _ e, _, _ | .void _ e, _, _ | .spread _ e, _, _ => by
    simp [placed_expr e]
  | .cond _ c t e, _, _ => by simp [placed_expr c, placed_expr t, placed_expr e]
  | .array _ es, _, _ => by simp [allPlaced_exprs es]
  | .object _ ps, _, _ => by simp [allPlaced_properties ps]
  | .arrow _ ps b e, _, _ => by
    simp [allPlaced_params ps, placed_block b]
    split
    · rw [placed_expr e]
    · rfl
  | .func _ _ ps b, _, _ => by simp [allPlaced_params ps, placed_block b]

theorem allPlaced_exprs : ∀ (es : List Expr) (bound : List String),
    Expr.allPlaced (r.exprs bound es) = Expr.allPlaced es
  | [], _ => rfl
  | e :: es, _ => by simp [placed_expr e, allPlaced_exprs es]

theorem placed_property : ∀ (p : Property) (bound : List String),
    (r.property bound p).placed = p.placed
  | .assign _ k v, _ => by
    simp [placed_expr v]
    split
    · rfl
    · rw [placed_expr k]
  | .shorthand t name, bound => r.placed_shorthand bound t name
  | .spread _ e, _ => by simp [placed_expr e]

theorem allPlaced_properties : ∀ (ps : List Property) (bound : List String),
    Property.allPlaced (r.properties bound ps) = Property.allPlaced ps
  | [], _ => rfl
  | p :: ps, _ => by simp [placed_property p, allPlaced_properties ps]

theorem allPlaced_params : ∀ (ps : List Param) (bound : List String),
    Param.allPlaced (r.params bound ps) = Param.allPlaced ps
  | [], _ => rfl
  | .mk _ _ _ _ _ init :: ps, _ => by simp [placed_expr init, allPlaced_params ps]

theorem placed_block : ∀ (b : Block) (bound : List String), (r.block bound b).placed = b.placed
  | .missing, _ => rfl
  | .mk _ _ ss, _ => by simp [allPlaced_stmts ss]

theorem placed_stmt : ∀ (s : Stmt) (bound : List String), (r.stmt bound s).placed = s.placed
  | .missing, _ | .importDecl .., _ | .exportDecl .., _ => rfl
  | .block b, _ => by simp [placed_block b]
  | .expr _ e, _ | .ret _ e, _ | .throw _ e, _ => by simp [placed_expr e]
  | .cond _ c y n, _ => by simp [placed_expr c, placed_stmt y, placed_stmt n]
  | .varDecl _ _ _ ds, _ => by simp [allPlaced_declarators ds]
  | .funcDecl _ _ _ ps _ b, _ => by simp [allPlaced_params ps, placed_block b]
  | .classDecl _ _ _ base ms, _ => by simp [placed_expr base, allPlaced_members ms]

theorem allPlaced_stmts : ∀ (ss : List Stmt) (bound : List String),
    Stmt.allPlaced (r.stmts bound ss) = Stmt.allPlaced ss
  | [], _ => rfl
  | s :: ss, _ => by simp [placed_stmt s, allPlaced_stmts ss]

theorem allPlaced_declarators : ∀ (ds : List Declarator) (bound : List String),
    Declarator.allPlaced (r.declarators bound ds) = Declarator.allPlaced ds
  | [], _ => rfl
  | .mk _ _ _ init :: ds, _ => by simp [placed_expr init, allPlaced_declarators ds]

theorem placed_member : ∀ (m : Member) (bound : List String),
    (r.member bound m).placed = m.placed
  | .ctor _ ps b, _ | .method _ _ _ ps b, _ => by simp [allPlaced_params ps, placed_block b]
  | .field _ _ _ _ init, _ => by simp [placed_expr init]

theorem allPlaced_members : ∀ (ms : List Member) (bound : List String),
    Member.allPlaced (r.members bound ms) = Member.allPlaced ms
  | [], _ => rfl
  | m :: ms, _ => by simp [placed_member m, allPlaced_members ms]

end

theorem references_placed (ss : List Stmt) :
    Stmt.allPlaced (r.references ss) = Stmt.allPlaced ss := by
  unfold references
  split
  · rfl
  · exact r.allPlaced_stmts ss []

end Renaming

end ExtensionLowering
