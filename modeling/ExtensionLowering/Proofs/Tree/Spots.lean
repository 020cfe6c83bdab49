import ExtensionLowering.Proofs.Alias.Scope
import ExtensionLowering.Proofs.Tree.Preorder
/-!
# Identifiers in their scopes

`spots` lists the identifiers of a tree, each with the part it plays and the scopes around it. It
holds what `idents` and `refs` hold: the first forgets the scopes, the second keeps the references
only. Changing identifiers changes the spots one by one as long as bindings keep their names, since
then the scopes stay.
-/
namespace ExtensionLowering

open List

variable {scopes : Scopes} {g : Ident → Ident}

/-- The part that an identifier plays where it stands. -/
inductive SpotRole where
  | reference
  | shorthand
  | binder
  /-- A name that is neither bound nor looked up, such as a property. -/
  | label
  deriving Repr, DecidableEq

structure Spot where
  ident : Ident
  role : SpotRole
  scopes : Scopes
  deriving Repr, DecidableEq

namespace Spot

/-- The reference that an identifier is, if it is one. -/
def occurrence? (p : Spot) : Option Occurrence :=
  match p.role with
  | .reference => some (p.ident.refer p.scopes false)
  | .shorthand => some (p.ident.refer p.scopes true)
  | .binder | .label => none

/-- Is the name looked up? -/
def IsReference (p : Spot) : Prop :=
  p.role = .reference ∨ p.role = .shorthand

instance (p : Spot) : Decidable p.IsReference :=
  inferInstanceAs (Decidable (p.role = .reference ∨ p.role = .shorthand))

/-- The spot with another identifier. -/
def map (g : Ident → Ident) (p : Spot) : Spot :=
  { p with ident := g p.ident }

@[simp] theorem map_ident (g : Ident → Ident) (p : Spot) : (p.map g).ident = g p.ident := rfl

end Spot

/-- The spots of names that stand in one place. -/
def spotsOf (role : SpotRole) (scopes : Scopes) (ids : List Ident) : List Spot :=
  ids.map fun id => ⟨id, role, scopes⟩

mutual

def Expr.spots (scopes : Scopes) : Expr → List Spot
  | .missing | .number .. | .string .. | .bool .. | .this _ | .super _ => []
  | .ident id => [⟨id, .reference, scopes⟩]
  | .prop _ _ o name _ => o.spots scopes ++ spotsOf .label scopes name.toList
  | .elem _ _ o x => o.spots scopes ++ x.spots scopes
  | .call _ _ c _ as | .new _ c _ as => c.spots scopes ++ Expr.allSpots scopes as
  | .binary _ _ l _ r => l.spots scopes ++ r.spots scopes
  | .unary _ _ e | .paren _ e | .void _ e | .spread _ e => e.spots scopes
  | .cond _ c t e => c.spots scopes ++ t.spots scopes ++ e.spots scopes
  | .array _ es => Expr.allSpots scopes es
  | .object _ ps => Property.allSpots scopes ps
  | .arrow _ ps b e =>
    let inner := Param.bound ps :: scopes
    Param.allSpots inner ps ++ b.spots inner true ++
      if b.isMissing then e.spots inner else spotsOf .label inner e.idents
  | .func _ self ps b =>
    let outer := namesOf [self] :: scopes
    let inner := Param.bound ps :: outer
    spotsOf .binder outer self.toList ++ Param.allSpots inner ps ++ b.spots inner true

def Expr.allSpots (scopes : Scopes) : List Expr → List Spot
  | [] => []
  | e :: es => e.spots scopes ++ Expr.allSpots scopes es

def Property.spots (scopes : Scopes) : Property → List Spot
  | .assign _ k v =>
    (if k.isLiteralKey then spotsOf .label scopes k.idents else k.spots scopes) ++ v.spots scopes
  | .shorthand _ name => spotsOf .shorthand scopes name.toList
  | .spread _ e => e.spots scopes

def Property.allSpots (scopes : Scopes) : List Property → List Spot
  | [] => []
  | p :: ps => p.spots scopes ++ Property.allSpots scopes ps

def Param.spots (scopes : Scopes) : Param → List Spot
  | .mk _ name _ _ _ init => spotsOf .binder scopes name.toList ++ init.spots scopes

def Param.allSpots (scopes : Scopes) : List Param → List Spot
  | [] => []
  | p :: ps => p.spots scopes ++ Param.allSpots scopes ps

def Block.spots (scopes : Scopes) (body : Bool) : Block → List Spot
  | .missing => []
  | .mk _ _ ss => Stmt.allSpots (Stmt.scope body ss :: scopes) ss

def Stmt.spots (scopes : Scopes) : Stmt → List Spot
  | .missing => []
  | .block b => b.spots scopes false
  | .expr _ e | .ret _ e | .throw _ e => e.spots scopes
  | .cond _ c y n => c.spots scopes ++ y.spots scopes ++ n.spots scopes
  | .varDecl _ _ _ ds => Declarator.allSpots scopes ds
  | .funcDecl _ _ name ps _ b =>
    let inner := Param.bound ps :: scopes
    spotsOf .binder scopes name.toList ++ Param.allSpots inner ps ++ b.spots inner true
  | .classDecl _ _ name base ms =>
    spotsOf .binder scopes name.toList ++ base.spots scopes ++ Member.allSpots scopes ms
  | .importDecl _ space default named _ =>
    spotsOf .label scopes (space.toList ++ default.toList ++ named.flatMap Specifier.idents)
  | .exportDecl _ named => spotsOf .label scopes (named.flatMap Specifier.idents)

def Stmt.allSpots (scopes : Scopes) : List Stmt → List Spot
  | [] => []
  | s :: ss => s.spots scopes ++ Stmt.allSpots scopes ss

def Declarator.spots (scopes : Scopes) : Declarator → List Spot
  | .mk _ name _ init => spotsOf .binder scopes name.toList ++ init.spots scopes

def Declarator.allSpots (scopes : Scopes) : List Declarator → List Spot
  | [] => []
  | d :: ds => d.spots scopes ++ Declarator.allSpots scopes ds

def Member.spots (scopes : Scopes) : Member → List Spot
  | .ctor _ ps b =>
    let inner := Param.bound ps :: scopes
    Param.allSpots inner ps ++ b.spots inner true
  | .method _ _ name ps b =>
    let inner := Param.bound ps :: scopes
    spotsOf .label scopes name.toList ++ Param.allSpots inner ps ++ b.spots inner true
  | .field _ _ name _ init => spotsOf .label scopes name.toList ++ init.spots scopes

def Member.allSpots (scopes : Scopes) : List Member → List Spot
  | [] => []
  | m :: ms => m.spots scopes ++ Member.allSpots scopes ms

end

/-! ## Lists -/

@[simp] theorem spotsOf_ident (role : SpotRole) (scopes : Scopes) (ids : List Ident) :
    (spotsOf role scopes ids).map (·.ident) = ids := by
  simp [spotsOf, Function.comp_def]

theorem spotsOf_map (g : Ident → Ident) (role : SpotRole) (scopes : Scopes) (ids : List Ident) :
    (spotsOf role scopes ids).map (Spot.map g) = spotsOf role scopes (ids.map g) := by
  simp [spotsOf, Spot.map, Function.comp_def]

@[grind =] theorem mem_spotsOf {role : SpotRole} {ids : List Ident} {p : Spot} :
    p ∈ spotsOf role scopes ids ↔ ∃ id ∈ ids, p = ⟨id, role, scopes⟩ := by
  simp [spotsOf, eq_comm]

theorem Stmt.allSpots_eq_flatMap (scopes : Scopes) (ss : List Stmt) :
    Stmt.allSpots scopes ss = ss.flatMap (Stmt.spots scopes) :=
  eq_flatMap_of_cons rfl (fun _ _ => rfl) ss

@[simp] theorem Stmt.allSpots_append (scopes : Scopes) (ss ss' : List Stmt) :
    Stmt.allSpots scopes (ss ++ ss') = Stmt.allSpots scopes ss ++ Stmt.allSpots scopes ss' := by
  simp [allSpots_eq_flatMap]

theorem Expr.allSpots_eq_flatMap (scopes : Scopes) (es : List Expr) :
    Expr.allSpots scopes es = es.flatMap (Expr.spots scopes) :=
  eq_flatMap_of_cons rfl (fun _ _ => rfl) es

@[simp] theorem Expr.allSpots_append (scopes : Scopes) (es es' : List Expr) :
    Expr.allSpots scopes (es ++ es') = Expr.allSpots scopes es ++ Expr.allSpots scopes es' := by
  simp [allSpots_eq_flatMap]

theorem Property.allSpots_eq_flatMap (scopes : Scopes) (ps : List Property) :
    Property.allSpots scopes ps = ps.flatMap (Property.spots scopes) :=
  eq_flatMap_of_cons rfl (fun _ _ => rfl) ps

theorem Param.allSpots_eq_flatMap (scopes : Scopes) (ps : List Param) :
    Param.allSpots scopes ps = ps.flatMap (Param.spots scopes) :=
  eq_flatMap_of_cons rfl (fun _ _ => rfl) ps

theorem Declarator.allSpots_eq_flatMap (scopes : Scopes) (ds : List Declarator) :
    Declarator.allSpots scopes ds = ds.flatMap (Declarator.spots scopes) :=
  eq_flatMap_of_cons rfl (fun _ _ => rfl) ds

/-! ## Forgetting the scopes, and keeping the references -/

/-- The references among some spots. -/
def refsOf (ps : List Spot) : List Occurrence :=
  ps.filterMap Spot.occurrence?

@[simp] theorem refsOf_append (ps qs : List Spot) : refsOf (ps ++ qs) = refsOf ps ++ refsOf qs :=
  filterMap_append

@[simp] theorem refsOf_label (scopes : Scopes) (ids : List Ident) :
    refsOf (spotsOf .label scopes ids) = [] := by
  simp [refsOf, spotsOf, filterMap_map, Spot.occurrence?]

@[simp] theorem refsOf_binder (scopes : Scopes) (ids : List Ident) :
    refsOf (spotsOf .binder scopes ids) = [] := by
  simp [refsOf, spotsOf, filterMap_map, Spot.occurrence?]

theorem refsOf_shorthand (scopes : Scopes) (ids : List Ident) :
    refsOf (spotsOf .shorthand scopes ids) = ids.map (Ident.refer scopes true) := by
  simp only [refsOf, spotsOf, filterMap_map]
  exact congrFun filterMap_eq_map _

attribute [local simp] Expr.refs Expr.allRefs Property.refs Property.allRefs Param.refs
  Param.allRefs Block.refs Stmt.refs Stmt.allRefs Declarator.refs Declarator.allRefs Member.refs
  Member.allRefs Expr.spots Expr.allSpots Property.spots Property.allSpots Param.spots
  Param.allSpots Block.spots Stmt.spots Stmt.allSpots Declarator.spots Declarator.allSpots
  Member.spots Member.allSpots

mutual

theorem Expr.spots_spec : ∀ (e : Expr) (sc : Scopes),
    (e.spots sc).map (·.ident) = e.idents ∧ refsOf (e.spots sc) = e.refs sc
  | .missing, _ | .number .., _ | .string .., _ | .bool .., _ | .this _, _ | .super _, _
  | .ident _, _ => ⟨rfl, rfl⟩
  | .prop _ _ o _ _, sc | .unary _ _ o, sc | .paren _ o, sc | .void _ o, sc | .spread _ o, sc => by
    simp [o.spots_spec sc]
  | .elem _ _ o x, sc | .binary _ _ o _ x, sc => by simp [o.spots_spec sc, x.spots_spec sc]
  | .call _ _ c _ as, sc | .new _ c _ as, sc => by simp [c.spots_spec sc, Expr.allSpots_spec as sc]
  | .cond _ c t e, sc => by simp [c.spots_spec sc, t.spots_spec sc, e.spots_spec sc]
  | .array _ es, sc => by simp [Expr.allSpots_spec es sc]
  | .object _ ps, sc => by simp [Property.allSpots_spec ps sc]
  | .arrow _ ps b e, sc => by
    simp only [Expr.refs, Expr.spots, Expr.idents_arrow, map_append, refsOf_append,
      Param.allSpots_spec ps, b.spots_spec]
    split <;> simp [e.spots_spec]
  | .func _ _ ps b, sc => by simp [Param.allSpots_spec ps, b.spots_spec]

theorem Expr.allSpots_spec : ∀ (es : List Expr) (sc : Scopes),
    (Expr.allSpots sc es).map (·.ident) = es.flatMap Expr.idents ∧
      refsOf (Expr.allSpots sc es) = Expr.allRefs sc es
  | [], _ => ⟨rfl, rfl⟩
  | e :: es, sc => by simp [e.spots_spec sc, Expr.allSpots_spec es sc]

theorem Property.spots_spec : ∀ (p : Property) (sc : Scopes),
    (p.spots sc).map (·.ident) = p.idents ∧ refsOf (p.spots sc) = p.refs sc
  | .assign _ k v, sc => by
    simp only [Property.refs, Property.spots, Property.idents_assign, map_append, refsOf_append,
      v.spots_spec]
    split <;> simp [k.spots_spec]
  | .shorthand .., sc => by simp [refsOf_shorthand]
  | .spread _ e, sc => by simp [e.spots_spec sc]

theorem Property.allSpots_spec : ∀ (ps : List Property) (sc : Scopes),
    (Property.allSpots sc ps).map (·.ident) = ps.flatMap Property.idents ∧
      refsOf (Property.allSpots sc ps) = Property.allRefs sc ps
  | [], _ => ⟨rfl, rfl⟩
  | p :: ps, sc => by simp [p.spots_spec sc, Property.allSpots_spec ps sc]

theorem Param.allSpots_spec : ∀ (ps : List Param) (sc : Scopes),
    (Param.allSpots sc ps).map (·.ident) = ps.flatMap Param.idents ∧
      refsOf (Param.allSpots sc ps) = Param.allRefs sc ps
  | [], _ => ⟨rfl, rfl⟩
  | .mk _ _ _ _ _ e :: ps, sc => by simp [e.spots_spec sc, Param.allSpots_spec ps sc]

theorem Block.spots_spec : ∀ (b : Block) (sc : Scopes) (body : Bool),
    (b.spots sc body).map (·.ident) = b.idents ∧ refsOf (b.spots sc body) = b.refs sc body
  | .missing, _, _ => ⟨rfl, rfl⟩
  | .mk _ _ ss, sc, _ => by simp [Stmt.allSpots_spec ss]

theorem Stmt.spots_spec : ∀ (s : Stmt) (sc : Scopes),
    (s.spots sc).map (·.ident) = s.idents ∧ refsOf (s.spots sc) = s.refs sc
  | .missing, _ => ⟨rfl, rfl⟩
  | .block b, sc | .expr _ b, sc | .ret _ b, sc | .throw _ b, sc => by simp [b.spots_spec sc]
  | .cond _ c y n, sc => by simp [c.spots_spec sc, y.spots_spec sc, n.spots_spec sc]
  | .varDecl _ _ _ ds, sc => by simp [Declarator.allSpots_spec ds sc]
  | .funcDecl _ _ _ ps _ b, sc => by simp [Param.allSpots_spec ps, b.spots_spec]
  | .classDecl _ _ _ base ms, sc => by simp [base.spots_spec sc, Member.allSpots_spec ms sc]
  | .importDecl .., sc | .exportDecl .., sc => by simp

theorem Stmt.allSpots_spec : ∀ (ss : List Stmt) (sc : Scopes),
    (Stmt.allSpots sc ss).map (·.ident) = ss.flatMap Stmt.idents ∧
      refsOf (Stmt.allSpots sc ss) = Stmt.allRefs sc ss
  | [], _ => ⟨rfl, rfl⟩
  | s :: ss, sc => by simp [s.spots_spec sc, Stmt.allSpots_spec ss sc]

theorem Declarator.allSpots_spec : ∀ (ds : List Declarator) (sc : Scopes),
    (Declarator.allSpots sc ds).map (·.ident) = ds.flatMap Declarator.idents ∧
      refsOf (Declarator.allSpots sc ds) = Declarator.allRefs sc ds
  | [], _ => ⟨rfl, rfl⟩
  | .mk _ _ _ e :: ds, sc => by simp [e.spots_spec sc, Declarator.allSpots_spec ds sc]

theorem Member.spots_spec : ∀ (m : Member) (sc : Scopes),
    (m.spots sc).map (·.ident) = m.idents ∧ refsOf (m.spots sc) = m.refs sc
  | .ctor _ ps b, sc | .method _ _ _ ps b, sc => by simp [Param.allSpots_spec ps, b.spots_spec]
  | .field _ _ _ _ e, sc => by simp [e.spots_spec sc]

theorem Member.allSpots_spec : ∀ (ms : List Member) (sc : Scopes),
    (Member.allSpots sc ms).map (·.ident) = ms.flatMap Member.idents ∧
      refsOf (Member.allSpots sc ms) = Member.allRefs sc ms
  | [], _ => ⟨rfl, rfl⟩
  | m :: ms, sc => by simp [m.spots_spec sc, Member.allSpots_spec ms sc]

end

/-! ## Changing identifiers -/

/-- The function leaves the names of the bindings among some spots. -/
def KeepsBinders (g : Ident → Ident) (ps : List Spot) : Prop :=
  ∀ p ∈ ps, p.role = .binder → (g p.ident).name = p.ident.name

theorem keepsBinders_append {ps qs : List Spot} :
    KeepsBinders g (ps ++ qs) ↔ KeepsBinders g ps ∧ KeepsBinders g qs := by
  simp only [KeepsBinders, forall_mem_append]

theorem keepsBinders_spotsOf {ids : List Ident} :
    KeepsBinders g (spotsOf .binder scopes ids) ↔ ∀ id ∈ ids, (g id).name = id.name := by
  simp [KeepsBinders, spotsOf]

section Names

variable {g : Ident → Ident} {scopes : Scopes}

theorem namesOf_map {ids : List (Option Ident)} (h : ∀ id, some id ∈ ids → (g id).name = id.name) :
    namesOf (ids.map (Option.map g)) = namesOf ids := by
  induction ids with
  | nil => rfl
  | cons i ids ih =>
    have hrest := ih fun id hid => h id (mem_cons_of_mem _ hid)
    cases i with
    | none => simpa [namesOf] using hrest
    | some id => simpa [namesOf, h id mem_cons_self] using hrest

theorem namesOf_map_self {self : Option Ident}
    (h : ∀ id ∈ self.toList, (g id).name = id.name) : namesOf [self.map g] = namesOf [self] := by
  have hself : ∀ id, some id ∈ [self] → (g id).name = id.name := fun id hid =>
    h id (by simpa [eq_comm] using hid)
  exact namesOf_map hself

theorem Param.bound_mapAll {ps : List Param} (h : KeepsBinders g (Param.allSpots scopes ps)) :
    Param.bound (Param.mapAll g ps) = Param.bound ps := by
  have hnames : (Param.mapAll g ps).map (·.name) = (ps.map (·.name)).map (Option.map g) := by
    rw [Param.mapAll_eq_map, map_map, map_map]
    exact map_congr_left fun p _ => by cases p; rfl
  rw [Param.bound, Param.bound, hnames]
  refine namesOf_map fun id hid => ?_
  obtain ⟨⟨t, n, ty, o, r, e⟩, hp, rfl⟩ := mem_map.1 hid
  refine h ⟨id, .binder, scopes⟩ ?_ rfl
  rw [Param.allSpots_eq_flatMap]
  exact mem_flatMap.2 ⟨_, hp, by simp [spotsOf]⟩

theorem Declarator.names_mapAll {ds : List Declarator}
    (h : KeepsBinders g (Declarator.allSpots scopes ds)) :
    namesOf ((Declarator.mapAll g ds).map (·.name)) = namesOf (ds.map (·.name)) := by
  have hnames : (Declarator.mapAll g ds).map (·.name) = (ds.map (·.name)).map (Option.map g) := by
    rw [Declarator.mapAll_eq_map, map_map, map_map]
    exact map_congr_left fun d _ => by cases d; rfl
  rw [hnames]
  refine namesOf_map fun id hid => ?_
  obtain ⟨⟨t, n, ty, e⟩, hd, rfl⟩ := mem_map.1 hid
  refine h ⟨id, .binder, scopes⟩ ?_ rfl
  rw [Declarator.allSpots_eq_flatMap]
  exact mem_flatMap.2 ⟨_, hd, by simp [spotsOf]⟩

theorem Stmt.lexical_mapIdents {s : Stmt} (h : KeepsBinders g (s.spots scopes)) :
    (s.mapIdents g).lexical = s.lexical := by
  cases s with
  | varDecl t x k ds =>
    rw [Stmt.spots] at h
    cases k with
    | var => rfl
    | _ => exact Declarator.names_mapAll h
  | funcDecl | classDecl =>
    rw [Stmt.spots, keepsBinders_append, keepsBinders_append, keepsBinders_spotsOf] at h
    exact namesOf_map_self h.1.1
  | _ => rfl

end Names

section

variable (g : Ident → Ident)

mutual

theorem Block.hoisted_mapIdents : ∀ (b : Block) (scopes : Scopes) (body : Bool),
    KeepsBinders g (b.spots scopes body) → (b.mapIdents g).hoisted = b.hoisted
  | .missing, _, _, _ => rfl
  | .mk _ _ ss, _, _, h => Stmt.allHoisted_mapAll ss _ h

theorem Stmt.hoisted_mapIdents : ∀ (s : Stmt) (scopes : Scopes),
    KeepsBinders g (s.spots scopes) → (s.mapIdents g).hoisted = s.hoisted
  | .block b, sc, h => b.hoisted_mapIdents sc false h
  | .cond _ _ y n, sc, h => by
    rw [Stmt.spots, keepsBinders_append, keepsBinders_append] at h
    simp [Stmt.mapIdents, Stmt.hoisted, y.hoisted_mapIdents sc h.1.2,
      n.hoisted_mapIdents sc h.2]
  | .varDecl _ _ k ds, sc, h => by
    rw [Stmt.spots] at h
    cases k with
    | var => exact Declarator.names_mapAll h
    | _ => rfl
  | .missing, _, _ | .expr .., _, _ | .ret .., _, _ | .throw .., _, _ | .funcDecl .., _, _
  | .classDecl .., _, _ | .importDecl .., _, _ | .exportDecl .., _, _ => rfl

theorem Stmt.allHoisted_mapAll : ∀ (ss : List Stmt) (scopes : Scopes),
    KeepsBinders g (Stmt.allSpots scopes ss) →
      Stmt.allHoisted (Stmt.mapAll g ss) = Stmt.allHoisted ss
  | [], _, _ => rfl
  | s :: ss, sc, h => by
    rw [Stmt.allSpots, keepsBinders_append] at h
    simp [Stmt.mapAll, Stmt.allHoisted, s.hoisted_mapIdents sc h.1,
      Stmt.allHoisted_mapAll ss sc h.2]

end

end

theorem Stmt.scope_mapAll (body : Bool) {ss : List Stmt}
    (h : KeepsBinders g (Stmt.allSpots scopes ss)) :
    Stmt.scope body (Stmt.mapAll g ss) = Stmt.scope body ss := by
  have hlexical : (Stmt.mapAll g ss).flatMap Stmt.lexical = ss.flatMap Stmt.lexical := by
    induction ss with
    | nil => rfl
    | cons s ss ih =>
      rw [Stmt.allSpots, keepsBinders_append] at h
      rw [Stmt.mapAll, flatMap_cons, flatMap_cons, Stmt.lexical_mapIdents h.1, ih h.2]
  rw [Stmt.scope, Stmt.scope, hlexical, Stmt.allHoisted_mapAll g ss scopes h]

theorem Expr.isLiteralKey_mapIdents (g : Ident → Ident) (e : Expr) :
    (e.mapIdents g).isLiteralKey = e.isLiteralKey := by
  cases e <;> rfl

theorem Block.isMissing_mapIdents (g : Ident → Ident) (b : Block) :
    (b.mapIdents g).isMissing = b.isMissing := by
  cases b <;> rfl

/-- The spots after changing identifiers are those before with the other identifiers, as long as the
names of bindings are left. -/
def Mapped (g : Ident → Ident) (ps qs : List Spot) : Prop :=
  KeepsBinders g ps → qs = ps.map (.map g)

namespace Mapped

theorem append {ps ps' qs qs' : List Spot} (h : Mapped g ps ps') (h' : Mapped g qs qs') :
    Mapped g (ps ++ qs) (ps' ++ qs') := by
  intro hkeeps
  obtain ⟨hps, hqs⟩ := keepsBinders_append.1 hkeeps
  rw [h hps, h' hqs, map_append]

theorem name {role : SpotRole} (n : Option Ident) :
    Mapped g (spotsOf role scopes n.toList) (spotsOf role scopes (n.map g).toList) := fun _ => by
  rw [spotsOf_map, Option.toList_map]

theorem label (e : Expr) :
    Mapped g (spotsOf .label scopes e.idents) (spotsOf .label scopes (e.mapIdents g).idents) :=
  fun _ => by rw [spotsOf_map, e.idents_mapIdents g]

end Mapped

section

variable (g : Ident → Ident)

mutual

theorem Expr.spots_mapIdents :
    ∀ (e : Expr) (sc : Scopes), Mapped g (e.spots sc) ((e.mapIdents g).spots sc)
  | .missing, _ | .number .., _ | .string .., _ | .bool .., _ | .this _, _ | .super _, _
  | .ident _, _ => fun _ => rfl
  | .prop _ _ o n _, sc => (o.spots_mapIdents sc).append (.name n)
  | .elem _ _ o x, sc | .binary _ _ o _ x, sc => (o.spots_mapIdents sc).append (x.spots_mapIdents sc)
  | .call _ _ c _ as, sc | .new _ c _ as, sc =>
    (c.spots_mapIdents sc).append (Expr.spots_mapAll as sc)
  | .unary _ _ e, sc | .paren _ e, sc | .void _ e, sc | .spread _ e, sc => e.spots_mapIdents sc
  | .cond _ c t e, sc =>
    ((c.spots_mapIdents sc).append (t.spots_mapIdents sc)).append (e.spots_mapIdents sc)
  | .array _ es, sc => Expr.spots_mapAll es sc
  | .object _ ps, sc => Property.spots_mapAll ps sc
  | .arrow _ ps b e, sc => fun h => by
    have hps := (keepsBinders_append.1 (keepsBinders_append.1 h).1).1
    rw [Expr.mapIdents, Expr.spots, Param.bound_mapAll hps, Block.isMissing_mapIdents]
    refine ((Param.spots_mapAll ps _).append (b.spots_mapIdents _ true)).append ?_ h
    cases b.isMissing with
    | true => exact e.spots_mapIdents _
    | false => exact .label e
  | .func _ self ps b, sc => fun h => by
    obtain ⟨hself, hps⟩ := keepsBinders_append.1 (keepsBinders_append.1 h).1
    rw [Expr.mapIdents, Expr.spots, Param.bound_mapAll hps,
      namesOf_map_self (keepsBinders_spotsOf.1 hself)]
    exact ((Mapped.name self).append (Param.spots_mapAll ps _)).append (b.spots_mapIdents _ true) h

theorem Expr.spots_mapAll : ∀ (es : List Expr) (sc : Scopes),
    Mapped g (Expr.allSpots sc es) (Expr.allSpots sc (Expr.mapAll g es))
  | [], _ => fun _ => rfl
  | e :: es, sc => (e.spots_mapIdents sc).append (Expr.spots_mapAll es sc)

theorem Property.spots_mapIdents :
    ∀ (p : Property) (sc : Scopes), Mapped g (p.spots sc) ((p.mapIdents g).spots sc)
  | .assign _ k v, sc => by
    rw [Property.mapIdents, Property.spots, Property.spots, Expr.isLiteralKey_mapIdents]
    refine .append ?_ (v.spots_mapIdents sc)
    split
    · exact .label k
    · exact k.spots_mapIdents sc
  | .shorthand _ n, _ => .name n
  | .spread _ e, sc => e.spots_mapIdents sc

theorem Property.spots_mapAll : ∀ (ps : List Property) (sc : Scopes),
    Mapped g (Property.allSpots sc ps) (Property.allSpots sc (Property.mapAll g ps))
  | [], _ => fun _ => rfl
  | p :: ps, sc => (p.spots_mapIdents sc).append (Property.spots_mapAll ps sc)

theorem Param.spots_mapAll : ∀ (ps : List Param) (sc : Scopes),
    Mapped g (Param.allSpots sc ps) (Param.allSpots sc (Param.mapAll g ps))
  | [], _ => fun _ => rfl
  | .mk _ n _ _ _ e :: ps, sc =>
    ((Mapped.name n).append (e.spots_mapIdents sc)).append (Param.spots_mapAll ps sc)

theorem Block.spots_mapIdents : ∀ (b : Block) (sc : Scopes) (body : Bool),
    Mapped g (b.spots sc body) ((b.mapIdents g).spots sc body)
  | .missing, _, _ => fun _ => rfl
  | .mk _ _ ss, _, body => fun h => by
    rw [Block.mapIdents, Block.spots, Stmt.scope_mapAll body h]
    exact Stmt.spots_mapAll ss _ h

theorem Stmt.spots_mapIdents :
    ∀ (s : Stmt) (sc : Scopes), Mapped g (s.spots sc) ((s.mapIdents g).spots sc)
  | .missing, _ => fun _ => rfl
  | .block b, sc => b.spots_mapIdents sc false
  | .expr _ e, sc | .ret _ e, sc | .throw _ e, sc => e.spots_mapIdents sc
  | .cond _ c y n, sc =>
    ((c.spots_mapIdents sc).append (y.spots_mapIdents sc)).append (n.spots_mapIdents sc)
  | .varDecl _ _ _ ds, sc => Declarator.spots_mapAll ds sc
  | .funcDecl _ _ n ps _ b, sc => fun h => by
    have hps := (keepsBinders_append.1 (keepsBinders_append.1 h).1).2
    rw [Stmt.mapIdents, Stmt.spots, Param.bound_mapAll hps]
    exact ((Mapped.name n).append (Param.spots_mapAll ps _)).append (b.spots_mapIdents _ true) h
  | .classDecl _ _ n base ms, sc =>
    ((Mapped.name n).append (base.spots_mapIdents sc)).append (Member.spots_mapAll ms sc)
  | .importDecl _ sp d ns _, sc => fun _ => by
    simp only [Stmt.mapIdents, Stmt.spots, spotsOf_map, map_append, Option.toList_map,
      Specifier.flatMap_idents_mapIdents]
  | .exportDecl _ ns, sc => fun _ => by
    simp only [Stmt.mapIdents, Stmt.spots, spotsOf_map, Specifier.flatMap_idents_mapIdents]

theorem Stmt.spots_mapAll : ∀ (ss : List Stmt) (sc : Scopes),
    Mapped g (Stmt.allSpots sc ss) (Stmt.allSpots sc (Stmt.mapAll g ss))
  | [], _ => fun _ => rfl
  | s :: ss, sc => (s.spots_mapIdents sc).append (Stmt.spots_mapAll ss sc)

theorem Declarator.spots_mapAll : ∀ (ds : List Declarator) (sc : Scopes),
    Mapped g (Declarator.allSpots sc ds) (Declarator.allSpots sc (Declarator.mapAll g ds))
  | [], _ => fun _ => rfl
  | .mk _ n _ e :: ds, sc =>
    ((Mapped.name n).append (e.spots_mapIdents sc)).append (Declarator.spots_mapAll ds sc)

theorem Member.spots_mapIdents :
    ∀ (m : Member) (sc : Scopes), Mapped g (m.spots sc) ((m.mapIdents g).spots sc)
  | .ctor _ ps b, sc => fun h => by
    rw [Member.mapIdents, Member.spots, Param.bound_mapAll (keepsBinders_append.1 h).1]
    exact (Param.spots_mapAll ps _).append (b.spots_mapIdents _ true) h
  | .method _ _ n ps b, sc => fun h => by
    have hps := (keepsBinders_append.1 (keepsBinders_append.1 h).1).2
    rw [Member.mapIdents, Member.spots, Param.bound_mapAll hps]
    exact ((Mapped.name n).append (Param.spots_mapAll ps _)).append (b.spots_mapIdents _ true) h
  | .field _ _ n _ e, sc => (Mapped.name n).append (e.spots_mapIdents sc)

theorem Member.spots_mapAll : ∀ (ms : List Member) (sc : Scopes),
    Mapped g (Member.allSpots sc ms) (Member.allSpots sc (Member.mapAll g ms))
  | [], _ => fun _ => rfl
  | m :: ms, sc => (m.spots_mapIdents sc).append (Member.spots_mapAll ms sc)

end

end

end ExtensionLowering
