import ExtensionLowering.Proofs.Alias.Capture
import ExtensionLowering.Proofs.Tree.Survey
/-!
# Renaming references to hoisted variables

A `var` belongs to the body of the nearest function, however deep in its blocks and branches it is
declared. Renaming looks only at what blocks declare directly, at parameters and at own names: a
reference to a mapped name is left alone exactly if one of these is around it. So a reference to a
hoisted variable is renamed, away from its variable, unless the variable is declared directly in a
block around the reference.

## Main definitions

* `hoisting`: the survey of references with the hoisted names and the declared names around them.

## Main results

* `Renaming.hoisted_reference_kept_iff`: which references to hoisted variables stay.
-/
namespace ExtensionLowering

open List

/-- The names around a place: those of the `var`s of the functions whose bodies it is in, and those
that the blocks around it declare directly or the functions around it have as parameters or own
names. -/
structure NamesAround where
  hoisted : List String := []
  declared : List String := []
  deriving Repr, DecidableEq

/-- A reference, which can be a shorthand property. -/
structure Mention where
  ident : Ident
  short : Bool
  deriving Repr, DecidableEq

/-- The names around the parts of a function. -/
def NamesAround.function (self : Option Ident) (ps : List Param) (c : NamesAround) : NamesAround :=
  { c with declared := paramNames ps ++ (self.toList.map (·.name) ++ c.declared) }

/-- The names around the statements of a block. -/
def NamesAround.block (body : Bool) (ss : List Stmt) (c : NamesAround) : NamesAround where
  hoisted := (if body then Stmt.allHoisted ss else []) ++ c.hoisted
  declared := declaredNames ss ++ c.declared

/-- References with the names around them. -/
def hoisting : Survey NamesAround Mention where
  name id := [⟨id, false⟩]
  short id := [⟨id, true⟩]
  key _ := []
  sum _ _ _ _ := []
  defaults := .function
  body := .function
  block := .block

namespace Renaming

variable (r : Renaming) (bound : List String) {m : Mention × NamesAround}

/-- A reference after renaming: it is written with the new name, if its name is mapped and not
declared around it. -/
def mention (r : Renaming) (m : Mention × NamesAround) : Mention × NamesAround :=
  match if m.1.ident.name ∈ m.2.declared then none else r.lookup m.1.ident.name with
  | none => m
  | some binding => (⟨if m.1.short then binding else m.1.ident.rename binding.name, false⟩, m.2)

theorem target?_eq (x : String) : r.target? bound x = if x ∈ bound then none else r.lookup x := by
  simp [target?]

/-! ## Names around stay -/

theorem declaredNames_stmts (ss : List Stmt) :
    declaredNames (stmts r bound ss) = declaredNames ss := by
  have hstmt (s : Stmt) : Aliases.declaredBy (stmt r bound s) = Aliases.declaredBy s := by
    cases s with
    | varDecl t x k ds => simp [stmt, Aliases.declaredBy, names_declarators]
    | _ => rfl
  induction ss with
  | nil => rfl
  | cons s ss ih =>
    simp only [declaredNames, stmts, flatMap_cons, filterMap_append, map_append,
      hstmt] at ih ⊢
    rw [ih]

theorem block_stmts (body : Bool) (ss : List Stmt)
    (c : NamesAround) : c.block body (stmts r bound ss) = c.block body ss := by
  rw [NamesAround.block, NamesAround.block, hoisted_stmts, declaredNames_stmts]

theorem function_params (self : Option Ident) (ps : List Param)
    (c : NamesAround) : c.function self (params r bound ps) = c.function self ps := by
  rw [NamesAround.function, NamesAround.function, paramNames_eq, bound_params, paramNames_eq]

/-! ## References -/

attribute [local simp] Expr.survey expr mention

theorem survey_shorthand (t : Token) (name : Option Ident) (c : NamesAround) :
    (r.shorthand c.declared t name).survey hoisting c =
      ((Property.shorthand t name).survey hoisting c).map r.mention := by
  cases name with
  | none => rfl
  | some id =>
    cases h : r.target? c.declared id.name with
    | none => simp [shorthand, h, Property.survey, hoisting, ← target?_eq]
    | some b =>
      simp [shorthand, h, Property.survey, Expr.ofName, Expr.ofIdent, Expr.isLiteralKey,
        Survey.literalKey, hoisting, ← target?_eq]

/-- What renaming does to a function, if it is known for its parameters and its body. -/
theorem survey_function {r : Renaming} {self : Option Ident} {ps : List Param} {b : Block}
    {c : NamesAround}
    (hps : Param.allSurvey hoisting (c.function self ps)
        (params r (c.function self ps).declared ps) =
      (Param.allSurvey hoisting (c.function self ps) ps).map r.mention)
    (hb : (block r (c.function self ps).declared b).survey hoisting true (c.function self ps) =
      (b.survey hoisting true (c.function self ps)).map r.mention) :
    let ps' := params r (c.function self ps).declared ps
    Param.allSurvey hoisting (hoisting.defaults self ps' c) ps' ++
        (block r (c.function self ps).declared b).survey hoisting true (hoisting.body self ps' c) =
      (Param.allSurvey hoisting (hoisting.defaults self ps c) ps ++
        b.survey hoisting true (hoisting.body self ps c)).map r.mention := by
  have hnames := function_params r (c.function self ps).declared self ps c
  rw [map_append]
  exact congrArg₂ (· ++ ·) ((congrArg (Param.allSurvey hoisting · _) hnames).trans hps)
    ((congrArg (Block.survey hoisting true · _) hnames).trans hb)

section

variable (r : Renaming)

mutual

theorem survey_expr : ∀ (e : Expr) (c : NamesAround),
    (expr r c.declared e).survey hoisting c = (e.survey hoisting c).map r.mention
  | .missing, _ | .number .., _ | .string .., _ | .bool .., _ | .this _, _ | .super _, _ => rfl
  | .ident id, c => by
    cases h : r.target? c.declared id.name <;>
      simp [ident, h, hoisting, ← target?_eq]
  | .prop _ _ o _ _, c | .unary _ _ o, c | .paren _ o, c | .void _ o, c | .spread _ o, c =>
    survey_expr o c
  | .elem _ _ o x, c => by simp [survey_expr o c, survey_expr x c]
  | .call _ _ f _ as, c | .new _ f _ as, c => by simp [survey_expr f c, survey_exprs as c]
  | .binary _ _ l _ e, c => by
    have hsum (i : Info) (l : Expr) (op : String) (e : Expr) : hoisting.sum i l op e = [] := rfl
    simp [hsum, survey_expr l c, survey_expr e c]
  | .cond _ t y n, c => by simp [survey_expr t c, survey_expr y c, survey_expr n c]
  | .array _ es, c => survey_exprs es c
  | .object _ ps, c => survey_properties ps c
  | .arrow _ ps b e, c => by
    have hfn := survey_function (survey_params ps (c.function none ps))
      (survey_block b true (c.function none ps))
    have hnames := function_params r (c.function none ps).declared none ps c
    have he := (congrArg (Expr.survey hoisting · _) hnames).trans
      (survey_expr e (c.function none ps))
    rw [expr, Expr.survey, Expr.survey, block_isMissing, ← append_assoc, ← append_assoc,
      map_append]
    refine congrArg₂ (· ++ ·) hfn ?_
    cases b.isMissing with
    | true => exact he
    | false => rfl
  | .func _ self ps b, c => by
    have hfn := survey_function (survey_params ps (c.function self ps))
      (survey_block b true (c.function self ps))
    rw [expr, Expr.survey, Expr.survey, append_assoc]
    exact hfn

theorem survey_exprs : ∀ (es : List Expr) (c : NamesAround),
    Expr.allSurvey hoisting c (exprs r c.declared es) = (Expr.allSurvey hoisting c es).map r.mention
  | [], _ => rfl
  | e :: es, c => by simp [exprs, Expr.allSurvey, survey_expr e c, survey_exprs es c]

theorem survey_properties : ∀ (ps : List Property) (c : NamesAround),
    Property.allSurvey hoisting c (properties r c.declared ps) =
      (Property.allSurvey hoisting c ps).map r.mention
  | [], _ => rfl
  | p :: ps, c => by
    simp [properties, Property.allSurvey, survey_property p c, survey_properties ps c]

theorem survey_property : ∀ (p : Property) (c : NamesAround),
    (property r c.declared p).survey hoisting c = (p.survey hoisting c).map r.mention
  | .assign _ k v, c => by
    have hname (k : Expr) : hoisting.literalKey k = [] := by cases k <;> rfl
    rw [property, Property.survey, Property.survey, hname, hname]
    cases hkey : k.isLiteralKey with
    | true => simp [hkey, survey_expr v c]
    | false => simp [expr_isLiteralKey, hkey, survey_expr k c, survey_expr v c]
  | .shorthand t name, c => survey_shorthand r t name c
  | .spread _ e, c => survey_expr e c

theorem survey_params : ∀ (ps : List Param) (c : NamesAround),
    Param.allSurvey hoisting c (params r c.declared ps) =
      (Param.allSurvey hoisting c ps).map r.mention
  | [], _ => rfl
  | .mk _ _ _ _ _ e :: ps, c => by
    simp [params, param, Param.allSurvey, Param.survey, survey_expr e c, survey_params ps c]

theorem survey_block : ∀ (b : Block) (body : Bool) (c : NamesAround),
    (block r c.declared b).survey hoisting body c = (b.survey hoisting body c).map r.mention
  | .missing, _, _ => rfl
  | .mk _ _ ss, body, c => by
    rw [block, Block.survey, Block.survey]
    have hblock : hoisting.block body (stmts r (declaredNames ss ++ c.declared) ss) c =
        hoisting.block body ss c := block_stmts r _ body ss c
    rw [hblock]
    exact survey_stmts ss (c.block body ss)

theorem survey_stmts : ∀ (ss : List Stmt) (c : NamesAround),
    Stmt.allSurvey hoisting c (stmts r c.declared ss) = (Stmt.allSurvey hoisting c ss).map r.mention
  | [], _ => rfl
  | s :: ss, c => by simp [stmts, Stmt.allSurvey, survey_stmt s c, survey_stmts ss c]

theorem survey_stmt : ∀ (s : Stmt) (c : NamesAround),
    (stmt r c.declared s).survey hoisting c = (s.survey hoisting c).map r.mention
  | .missing, _ | .importDecl .., _ | .exportDecl .., _ => rfl
  | .block b, c => survey_block b false c
  | .expr _ e, c | .ret _ e, c | .throw _ e, c => survey_expr e c
  | .cond _ t y n, c => by
    simp [stmt, Stmt.survey, survey_expr t c, survey_stmt y c, survey_stmt n c]
  | .varDecl _ _ _ ds, c => survey_declarators ds c
  | .funcDecl _ _ _ ps _ b, c =>
    survey_function (survey_params ps (c.function none ps))
      (survey_block b true (c.function none ps))
  | .classDecl _ _ _ base ms, c => by
    simp [stmt, Stmt.survey, survey_expr base c, survey_members ms c]

theorem survey_declarators : ∀ (ds : List Declarator) (c : NamesAround),
    Declarator.allSurvey hoisting c (declarators r c.declared ds) =
      (Declarator.allSurvey hoisting c ds).map r.mention
  | [], _ => rfl
  | .mk _ _ _ e :: ds, c => by
    simp [declarators, declarator, Declarator.allSurvey, Declarator.survey, survey_expr e c,
      survey_declarators ds c]

theorem survey_members : ∀ (ms : List Member) (c : NamesAround),
    Member.allSurvey hoisting c (members r c.declared ms) =
      (Member.allSurvey hoisting c ms).map r.mention
  | [], _ => rfl
  | m :: ms, c => by simp [members, Member.allSurvey, survey_member m c, survey_members ms c]

theorem survey_member : ∀ (m : Member) (c : NamesAround),
    (member r c.declared m).survey hoisting c = (m.survey hoisting c).map r.mention
  | .ctor _ ps b, c | .method _ _ _ ps b, c =>
    survey_function (survey_params ps (c.function none ps))
      (survey_block b true (c.function none ps))
  | .field _ _ _ _ e, c => survey_expr e c

end

end

theorem mention_of_declared (h : m.1.ident.name ∈ m.2.declared) : r.mention m = m := by
  rw [mention, if_pos h]

/-- A reference to a name that is mapped to another one, and not declared around it, is changed. -/
theorem mention_ne {r : Renaming} (hr : ∀ b ∈ r, b.2.name ≠ b.1)
    (hmapped : (r.lookup m.1.ident.name).isSome) (h : m.1.ident.name ∉ m.2.declared) :
    r.mention m ≠ m := by
  obtain ⟨b, hb⟩ := Option.isSome_iff_exists.1 hmapped
  have hname : b.name ≠ m.1.ident.name := hr _ (mem_of_lookup hb)
  rw [mention, if_neg h, hb]
  intro heq
  have hm := congrArg (fun m => m.1) heq
  cases hshort : m.1.short with
  | true => simpa [hshort] using congrArg Mention.short hm
  | false =>
    have hident := congrArg (fun m => m.ident.name) hm
    simp only [hshort, Bool.false_eq_true, if_false, Ident.rename] at hident
    exact hname hident

/-- Renaming changes references one by one. Of those to mapped names that are inside a function with
a `var` of that name, however deep the `var` is, it leaves alone exactly those around which the name
is declared directly, by a block, a parameter or an own name. -/
theorem hoisted_reference_kept_iff (r : Renaming) (ss : List Stmt) (hr : ∀ b ∈ r, b.2.name ≠ b.1) :
    Stmt.allSurvey hoisting {} (r.references ss) = (Stmt.allSurvey hoisting {} ss).map r.mention ∧
    ∀ m ∈ Stmt.allSurvey hoisting {} ss,
      m.1.ident.name ∈ m.2.hoisted → (r.lookup m.1.ident.name).isSome →
        (r.mention m = m ↔ m.1.ident.name ∈ m.2.declared) := by
  refine ⟨?_, fun m _ _ hmapped => ⟨fun h => ?_, r.mention_of_declared⟩⟩
  · rw [references]
    split
    · rename_i hempty
      obtain rfl := isEmpty_iff.1 hempty
      refine ((map_congr_left fun m _ => ?_).trans (map_id _)).symm
      simp
    · exact survey_stmts r ss {}
  · by_contra hdeclared
    exact mention_ne hr hmapped hdeclared h

/-- `function k(c) { if (c) { var eq = 1; eq; } return eq; }` -/
def branching : List Stmt :=
  [.funcDecl {} false (some { name := "k" }) [.ofIdent { name := "c" }] .missing
    (.mk {} []
      [.cond {} (.ident { name := "c" })
        (.block (.mk {} []
          [.varDecl {} false .var [.mk {} (some { name := "eq" }) .missing (.number {} "1")],
            .expr {} (.ident { name := "eq" })])) .missing,
        .ret {} (.ident { name := "eq" })])]

/-- Both references to `eq` are to the variable of the function. The one in the block that declares
it stays. -/
theorem hoisted_reference_kept_iff_branching :
    (Stmt.allSurvey hoisting {} branching).map (fun m => (m.1.ident.name, m.2.hoisted)) =
      [("c", ["eq"]), ("eq", ["eq"]), ("eq", ["eq"])] ∧
    (Stmt.allSurvey hoisting {} (references [("eq", { name := "eq_1" })] branching)).map
      (fun m => (m.1.ident.name, m.2.declared)) =
        [("c", ["c"]), ("eq", ["eq", "c"]), ("eq_1", ["c"])] ∧
    mention [("eq", { name := "eq_1" })]
      (⟨{ name := "eq" }, false⟩, ⟨["eq"], ["eq", "c"]⟩) =
        (⟨{ name := "eq" }, false⟩, ⟨["eq"], ["eq", "c"]⟩) := by
  have hall := hoisted_reference_kept_iff [("eq", { name := "eq_1" })] branching (by decide)
  refine ⟨by decide +kernel, ?_, ?_⟩
  · rw [hall.1]
    decide +kernel
  · exact (hall.2 _ (by decide +kernel) (by decide) (by decide)).2 (by decide)

/-- The other reference, behind the branch, leaves its variable. -/
theorem hoisted_reference_renamed :
    (⟨{ name := "eq" }, false⟩, ⟨["eq"], ["c"]⟩) ∈ Stmt.allSurvey hoisting {} branching ∧
    references [("eq", { name := "eq_1" })] branching =
      [.funcDecl {} false (some { name := "k" }) [.ofIdent { name := "c" }] .missing
        (.mk {} []
          [.cond {} (.ident { name := "c" })
            (.block (.mk {} []
              [.varDecl {} false .var [.mk {} (some { name := "eq" }) .missing (.number {} "1")],
                .expr {} (.ident { name := "eq" })])) .missing,
            .ret {} (.ident ({ name := "eq" : Ident }.rename "eq_1"))])] :=
  ⟨by decide +kernel, by rfl⟩

end Renaming

end ExtensionLowering
