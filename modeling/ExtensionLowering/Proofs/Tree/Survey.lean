import ExtensionLowering.Tree.Build
import Mathlib.Data.List.Basic
/-!
# Surveys

A survey goes through a tree and notes what it looks for, each note with what surrounds it there.
What surrounds a place is built up on the way down: by the own name and the parameters of functions,
which differ for default values and bodies, and by blocks. The unused result of an arrow function
with a block is not part of the text, and is passed over; the name of a property is no reference.

## Main definitions

* `Survey`: what is noted, and how the surroundings are built up.
* `Stmt.allSurvey`: the notes on a list of statements.

## Main results

* `Stmt.allSurvey_notes`: what is noted does not depend on the surroundings.
-/
namespace ExtensionLowering

/-- What a survey notes, and how the surroundings `γ` are built up. -/
structure Survey (γ Λ : Type) where
  /-- The notes on a name in expression position. -/
  name : Ident → List Λ
  /-- The notes on a shorthand property. -/
  short : Ident → List Λ
  /-- The notes on the name of a property. -/
  key : Ident → List Λ
  /-- The notes on an operator with its operands, besides those on the operands. -/
  sum : Info → Expr → String → Expr → List Λ
  /-- The surroundings of the default values of parameters. -/
  defaults : Option Ident → List Param → γ → γ
  /-- The surroundings of the body of a function. -/
  body : Option Ident → List Param → γ → γ
  /-- The surroundings of the statements of a block, which can be the body of a function. -/
  block : Bool → List Stmt → γ → γ

variable {γ Λ : Type}

/-- The notes on a key that is written as it is. -/
def Survey.literalKey (S : Survey γ Λ) : Expr → List Λ
  | .ident id => S.key id
  | _ => []

mutual

def Expr.survey (S : Survey γ Λ) (c : γ) : Expr → List (Λ × γ)
  | .missing | .number .. | .string .. | .bool .. | .this _ | .super _ => []
  | .ident id => (S.name id).map (·, c)
  | .prop _ _ o _ _ => o.survey S c
  | .elem _ _ o x => o.survey S c ++ x.survey S c
  | .call _ _ f _ as | .new _ f _ as => f.survey S c ++ Expr.allSurvey S c as
  | .binary i _ l op r => (S.sum i l op r).map (·, c) ++ (l.survey S c ++ r.survey S c)
  | .unary _ _ e | .paren _ e | .void _ e | .spread _ e => e.survey S c
  | .cond _ t y n => t.survey S c ++ (y.survey S c ++ n.survey S c)
  | .array _ es => Expr.allSurvey S c es
  | .object _ ps => Property.allSurvey S c ps
  | .arrow _ ps b e =>
    Param.allSurvey S (S.defaults none ps c) ps ++ (b.survey S true (S.body none ps c) ++
      if b.isMissing then e.survey S (S.body none ps c) else [])
  | .func _ self ps b =>
    Param.allSurvey S (S.defaults self ps c) ps ++ b.survey S true (S.body self ps c)

def Expr.allSurvey (S : Survey γ Λ) (c : γ) : List Expr → List (Λ × γ)
  | [] => []
  | e :: es => e.survey S c ++ Expr.allSurvey S c es

def Property.survey (S : Survey γ Λ) (c : γ) : Property → List (Λ × γ)
  | .assign _ k v =>
    (if k.isLiteralKey then (S.literalKey k).map (·, c) else k.survey S c) ++ v.survey S c
  | .shorthand _ name => (name.toList.flatMap S.short).map (·, c)
  | .spread _ e => e.survey S c

def Property.allSurvey (S : Survey γ Λ) (c : γ) : List Property → List (Λ × γ)
  | [] => []
  | p :: ps => p.survey S c ++ Property.allSurvey S c ps

def Param.survey (S : Survey γ Λ) (c : γ) : Param → List (Λ × γ)
  | .mk _ _ _ _ _ init => init.survey S c

def Param.allSurvey (S : Survey γ Λ) (c : γ) : List Param → List (Λ × γ)
  | [] => []
  | p :: ps => p.survey S c ++ Param.allSurvey S c ps

def Block.survey (S : Survey γ Λ) (body : Bool) (c : γ) : Block → List (Λ × γ)
  | .missing => []
  | .mk _ _ ss => Stmt.allSurvey S (S.block body ss c) ss

def Stmt.survey (S : Survey γ Λ) (c : γ) : Stmt → List (Λ × γ)
  | .missing | .importDecl .. | .exportDecl .. => []
  | .block b => b.survey S false c
  | .expr _ e | .ret _ e | .throw _ e => e.survey S c
  | .cond _ t y n => t.survey S c ++ (y.survey S c ++ n.survey S c)
  | .varDecl _ _ _ ds => Declarator.allSurvey S c ds
  | .funcDecl _ _ _ ps _ b =>
    Param.allSurvey S (S.defaults none ps c) ps ++ b.survey S true (S.body none ps c)
  | .classDecl _ _ _ base ms => base.survey S c ++ Member.allSurvey S c ms

def Stmt.allSurvey (S : Survey γ Λ) (c : γ) : List Stmt → List (Λ × γ)
  | [] => []
  | s :: ss => s.survey S c ++ Stmt.allSurvey S c ss

def Declarator.survey (S : Survey γ Λ) (c : γ) : Declarator → List (Λ × γ)
  | .mk _ _ _ init => init.survey S c

def Declarator.allSurvey (S : Survey γ Λ) (c : γ) : List Declarator → List (Λ × γ)
  | [] => []
  | d :: ds => d.survey S c ++ Declarator.allSurvey S c ds

def Member.survey (S : Survey γ Λ) (c : γ) : Member → List (Λ × γ)
  | .ctor _ ps b | .method _ _ _ ps b =>
    Param.allSurvey S (S.defaults none ps c) ps ++ b.survey S true (S.body none ps c)
  | .field _ _ _ _ init => init.survey S c

def Member.allSurvey (S : Survey γ Λ) (c : γ) : List Member → List (Λ × γ)
  | [] => []
  | m :: ms => m.survey S c ++ Member.allSurvey S c ms

end

/-! ## Notes alone -/

section

variable (S : Survey γ Λ)

attribute [local simp] Expr.survey Function.comp_def Stmt.survey

mutual

theorem Expr.survey_notes :
    ∀ (e : Expr) (c d : γ), (e.survey S c).map (·.1) = (e.survey S d).map (·.1)
  | .missing, _, _ | .number .., _, _ | .string .., _, _ | .bool .., _, _ | .this _, _, _
  | .super _, _, _ => rfl
  | .ident id, _, _ => by simp
  | .prop _ _ o _ _, c, d => o.survey_notes c d
  | .elem _ _ o x, c, d => by simp [o.survey_notes c d, x.survey_notes c d]
  | .call _ _ f _ as, c, d | .new _ f _ as, c, d => by
    simp [f.survey_notes c d, Expr.allSurvey_notes as c d]
  | .binary _ _ l _ r, c, d => by simp [l.survey_notes c d, r.survey_notes c d]
  | .unary _ _ e, c, d | .paren _ e, c, d | .void _ e, c, d | .spread _ e, c, d =>
    e.survey_notes c d
  | .cond _ t y n, c, d => by simp [t.survey_notes c d, y.survey_notes c d, n.survey_notes c d]
  | .array _ es, c, d => Expr.allSurvey_notes es c d
  | .object _ ps, c, d => Property.allSurvey_notes ps c d
  | .arrow _ ps b e, c, d => by
    rw [Expr.survey, Expr.survey]
    split <;> simp [Param.allSurvey_notes ps _ (S.defaults none ps d),
      b.survey_notes true _ (S.body none ps d), e.survey_notes _ (S.body none ps d)]
  | .func _ self ps b, c, d => by
    simp [Param.allSurvey_notes ps _ (S.defaults self ps d),
      b.survey_notes true _ (S.body self ps d)]

theorem Expr.allSurvey_notes :
    ∀ (es : List Expr) (c d : γ),
      (Expr.allSurvey S c es).map (·.1) = (Expr.allSurvey S d es).map (·.1)
  | [], _, _ => rfl
  | e :: es, c, d => by simp [Expr.allSurvey, e.survey_notes c d, Expr.allSurvey_notes es c d]

theorem Property.survey_notes :
    ∀ (p : Property) (c d : γ), (p.survey S c).map (·.1) = (p.survey S d).map (·.1)
  | .assign _ k v, c, d => by
    rw [Property.survey, Property.survey]
    split <;> simp [k.survey_notes c d, v.survey_notes c d]
  | .shorthand _ name, _, _ => by simp [Property.survey]
  | .spread _ e, c, d => e.survey_notes c d

theorem Property.allSurvey_notes :
    ∀ (ps : List Property) (c d : γ),
      (Property.allSurvey S c ps).map (·.1) = (Property.allSurvey S d ps).map (·.1)
  | [], _, _ => rfl
  | p :: ps, c, d => by
    simp [Property.allSurvey, p.survey_notes c d, Property.allSurvey_notes ps c d]

theorem Param.allSurvey_notes :
    ∀ (ps : List Param) (c d : γ),
      (Param.allSurvey S c ps).map (·.1) = (Param.allSurvey S d ps).map (·.1)
  | [], _, _ => rfl
  | .mk _ _ _ _ _ e :: ps, c, d => by
    simp [Param.allSurvey, Param.survey, e.survey_notes c d, Param.allSurvey_notes ps c d]

theorem Block.survey_notes :
    ∀ (b : Block) (body : Bool) (c d : γ),
      (b.survey S body c).map (·.1) = (b.survey S body d).map (·.1)
  | .missing, _, _, _ => rfl
  | .mk _ _ ss, _, _, _ => Stmt.allSurvey_notes ss _ _

theorem Stmt.survey_notes :
    ∀ (s : Stmt) (c d : γ), (s.survey S c).map (·.1) = (s.survey S d).map (·.1)
  | .missing, _, _ | .importDecl .., _, _ | .exportDecl .., _, _ => rfl
  | .block b, c, d => b.survey_notes false c d
  | .expr _ e, c, d | .ret _ e, c, d | .throw _ e, c, d => e.survey_notes c d
  | .cond _ t y n, c, d => by simp [t.survey_notes c d, y.survey_notes c d, n.survey_notes c d]
  | .varDecl _ _ _ ds, c, d => Declarator.allSurvey_notes ds c d
  | .funcDecl _ _ _ ps _ b, c, d => by
    simp [Param.allSurvey_notes ps _ (S.defaults none ps d),
      b.survey_notes true _ (S.body none ps d)]
  | .classDecl _ _ _ base ms, c, d => by simp [base.survey_notes c d, Member.allSurvey_notes ms c d]

/-- What is noted does not depend on the surroundings. -/
theorem Stmt.allSurvey_notes :
    ∀ (ss : List Stmt) (c d : γ),
      (Stmt.allSurvey S c ss).map (·.1) = (Stmt.allSurvey S d ss).map (·.1)
  | [], _, _ => rfl
  | s :: ss, c, d => by simp [Stmt.allSurvey, s.survey_notes c d, Stmt.allSurvey_notes ss c d]

theorem Declarator.allSurvey_notes :
    ∀ (xs : List Declarator) (c d : γ),
      (Declarator.allSurvey S c xs).map (·.1) = (Declarator.allSurvey S d xs).map (·.1)
  | [], _, _ => rfl
  | .mk _ _ _ e :: xs, c, d => by
    simp [Declarator.allSurvey, Declarator.survey, e.survey_notes c d,
      Declarator.allSurvey_notes xs c d]

theorem Member.survey_notes :
    ∀ (m : Member) (c d : γ), (m.survey S c).map (·.1) = (m.survey S d).map (·.1)
  | .ctor _ ps b, c, d | .method _ _ _ ps b, c, d => by
    simp [Member.survey, Param.allSurvey_notes ps _ (S.defaults none ps d),
      b.survey_notes true _ (S.body none ps d)]
  | .field _ _ _ _ init, c, d => init.survey_notes c d

theorem Member.allSurvey_notes :
    ∀ (ms : List Member) (c d : γ),
      (Member.allSurvey S c ms).map (·.1) = (Member.allSurvey S d ms).map (·.1)
  | [], _, _ => rfl
  | m :: ms, c, d => by simp [Member.allSurvey, m.survey_notes c d, Member.allSurvey_notes ms c d]

end

end

/-- Parameters that are only names have nothing to note. -/
theorem Param.allSurvey_ofIdent (S : Survey γ Λ) (c : γ) (ps : List Ident) :
    Param.allSurvey S c (ps.map .ofIdent) = [] := by
  induction ps with
  | nil => rfl
  | cons p ps ih =>
    rw [List.map_cons, Param.allSurvey, ih]
    rfl

end ExtensionLowering
