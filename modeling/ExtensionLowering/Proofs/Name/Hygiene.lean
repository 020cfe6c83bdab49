import ExtensionLowering.Proofs.Lowering.Account
/-!
# Hygiene of synthesized names

`Mentions` says where a name can stand in a tree: as a reference, as the name of a declaration, a
parameter, a function or a class member, as a property name and in the lists of imports and exports.
The walk that reserves the names of a file reaches all these places, so no name synthesized for the
file is mentioned in it.
-/
namespace ExtensionLowering

variable (x : String)

/-- A place that may hold a name holds this one. -/
def holds (x : String) (id : Option Ident) : Prop :=
  ∃ i ∈ id, i.name = x

def Specifier.Mentions (x : String) (s : Specifier) : Prop :=
  holds x s.name ∨ holds x s.newName

mutual

def Expr.Mentions (x : String) : Expr → Prop
  | .missing | .number .. | .string .. | .bool .. | .this _ | .super _ => False
  | .ident id => id.name = x
  | .prop _ _ o name _ => o.Mentions x ∨ holds x name
  | .elem _ _ o i => o.Mentions x ∨ i.Mentions x
  | .call _ _ c _ as | .new _ c _ as => c.Mentions x ∨ Expr.AnyMentions x as
  | .binary _ _ l _ r => l.Mentions x ∨ r.Mentions x
  | .unary _ _ e | .paren _ e | .void _ e | .spread _ e => e.Mentions x
  | .cond _ c t e => c.Mentions x ∨ t.Mentions x ∨ e.Mentions x
  | .array _ es => Expr.AnyMentions x es
  | .object _ ps => Property.AnyMentions x ps
  | .arrow _ ps b e => Param.AnyMentions x ps ∨ b.Mentions x ∨ e.Mentions x
  | .func _ name ps b => holds x name ∨ Param.AnyMentions x ps ∨ b.Mentions x

def Expr.AnyMentions (x : String) : List Expr → Prop
  | [] => False
  | e :: es => e.Mentions x ∨ Expr.AnyMentions x es

def Property.Mentions (x : String) : Property → Prop
  | .assign _ k v => k.Mentions x ∨ v.Mentions x
  | .shorthand _ name => holds x name
  | .spread _ e => e.Mentions x

def Property.AnyMentions (x : String) : List Property → Prop
  | [] => False
  | p :: ps => p.Mentions x ∨ Property.AnyMentions x ps

def Param.Mentions (x : String) : Param → Prop
  | .mk _ name _ _ _ init => holds x name ∨ init.Mentions x

def Param.AnyMentions (x : String) : List Param → Prop
  | [] => False
  | p :: ps => p.Mentions x ∨ Param.AnyMentions x ps

def Block.Mentions (x : String) : Block → Prop
  | .missing => False
  | .mk _ _ ss => Stmt.AnyMentions x ss

def Stmt.Mentions (x : String) : Stmt → Prop
  | .missing => False
  | .block b => b.Mentions x
  | .expr _ e | .ret _ e | .throw _ e => e.Mentions x
  | .cond _ c y n => c.Mentions x ∨ y.Mentions x ∨ n.Mentions x
  | .varDecl _ _ _ ds => Declarator.AnyMentions x ds
  | .funcDecl _ _ name ps _ b => holds x name ∨ Param.AnyMentions x ps ∨ b.Mentions x
  | .classDecl _ _ name base ms => holds x name ∨ base.Mentions x ∨ Member.AnyMentions x ms
  | .importDecl _ space default named _ =>
    holds x space ∨ holds x default ∨ ∃ s ∈ named, s.Mentions x
  | .exportDecl _ named => ∃ s ∈ named, s.Mentions x

def Stmt.AnyMentions (x : String) : List Stmt → Prop
  | [] => False
  | s :: ss => s.Mentions x ∨ Stmt.AnyMentions x ss

def Declarator.Mentions (x : String) : Declarator → Prop
  | .mk _ name _ init => holds x name ∨ init.Mentions x

def Declarator.AnyMentions (x : String) : List Declarator → Prop
  | [] => False
  | d :: ds => d.Mentions x ∨ Declarator.AnyMentions x ds

def Member.Mentions (x : String) : Member → Prop
  | .ctor _ ps b => Param.AnyMentions x ps ∨ b.Mentions x
  | .method _ _ name ps b => holds x name ∨ Param.AnyMentions x ps ∨ b.Mentions x
  | .field _ _ name _ init => holds x name ∨ init.Mentions x

def Member.AnyMentions (x : String) : List Member → Prop
  | [] => False
  | m :: ms => m.Mentions x ∨ Member.AnyMentions x ms

end

def File.Mentions (x : String) (f : File) : Prop :=
  Stmt.AnyMentions x f.stmts

/-! ## The walk reaches every mention -/

/-- One of some identifiers has this name. -/
def named (x : String) (ids : List Ident) : Prop :=
  ∃ id ∈ ids, id.name = x

@[simp] theorem named_nil : named x [] ↔ False := by
  simp [named]

@[simp] theorem named_singleton (id : Ident) : named x [id] ↔ id.name = x := by
  simp [named]

@[simp] theorem named_append (a b : List Ident) : named x (a ++ b) ↔ named x a ∨ named x b := by
  simp [named, or_and_right, exists_or]

@[simp] theorem named_toList (id : Option Ident) : named x id.toList ↔ holds x id := by
  simp [named, holds]

theorem named_specifiers (specs : List Specifier) :
    named x (specs.flatMap Specifier.idents) ↔ ∃ s ∈ specs, s.Mentions x := by
  induction specs with
  | nil => simp
  | cons s specs ih => simp [ih, Specifier.Mentions, Specifier.idents, or_assoc]

section

variable (x : String)

attribute [local simp] Expr.Mentions Expr.AnyMentions Property.Mentions Property.AnyMentions
  Param.Mentions Param.AnyMentions Block.Mentions Stmt.Mentions Stmt.AnyMentions Declarator.Mentions
  Declarator.AnyMentions Member.Mentions Member.AnyMentions

mutual

theorem Expr.named_idents : ∀ e : Expr, named x e.idents ↔ e.Mentions x
  | .missing | .number .. | .string .. | .bool .. | .this _ | .super _ => by simp
  | .ident id => by simp
  | .prop _ _ o _ _ | .unary _ _ o | .paren _ o | .void _ o | .spread _ o => by
    simp [o.named_idents]
  | .elem _ _ o i | .binary _ _ o _ i => by simp [o.named_idents, i.named_idents]
  | .call _ _ c _ as | .new _ c _ as => by simp [c.named_idents, Expr.named_all as]
  | .cond _ c t e => by simp [c.named_idents, t.named_idents, e.named_idents]
  | .array _ es => by simp [Expr.named_all es]
  | .object _ ps => by simp [Property.named_all ps]
  | .arrow _ ps b e => by simp [Param.named_all ps, b.named_idents, e.named_idents]
  | .func _ _ ps b => by simp [Param.named_all ps, b.named_idents]

theorem Expr.named_all : ∀ es : List Expr, named x (es.flatMap Expr.idents) ↔ Expr.AnyMentions x es
  | [] => by simp
  | e :: es => by simp [e.named_idents, Expr.named_all es]

theorem Property.named_idents : ∀ p : Property, named x p.idents ↔ p.Mentions x
  | .assign _ k v => by simp [k.named_idents, v.named_idents]
  | .shorthand .. => by simp
  | .spread _ e => by simp [e.named_idents]

theorem Property.named_all :
    ∀ ps : List Property, named x (ps.flatMap Property.idents) ↔ Property.AnyMentions x ps
  | [] => by simp
  | p :: ps => by simp [p.named_idents, Property.named_all ps]

theorem Param.named_all :
    ∀ ps : List Param, named x (ps.flatMap Param.idents) ↔ Param.AnyMentions x ps
  | [] => by simp
  | .mk _ _ _ _ _ e :: ps => by simp [e.named_idents, Param.named_all ps, or_assoc]

theorem Block.named_idents : ∀ b : Block, named x b.idents ↔ b.Mentions x
  | .missing => by simp
  | .mk _ _ ss => by simp [Stmt.named_all ss]

theorem Stmt.named_idents : ∀ s : Stmt, named x s.idents ↔ s.Mentions x
  | .missing => by simp
  | .block b => by simp [b.named_idents]
  | .expr _ e | .ret _ e | .throw _ e => by simp [e.named_idents]
  | .cond _ c y n => by simp [c.named_idents, y.named_idents, n.named_idents]
  | .varDecl _ _ _ ds => by simp [Declarator.named_all ds]
  | .funcDecl _ _ _ ps _ b => by simp [Param.named_all ps, b.named_idents]
  | .classDecl _ _ _ e ms => by simp [e.named_idents, Member.named_all ms]
  | .importDecl _ _ _ ns _ | .exportDecl _ ns => by simp [named_specifiers x ns]

theorem Stmt.named_all : ∀ ss : List Stmt, named x (ss.flatMap Stmt.idents) ↔ Stmt.AnyMentions x ss
  | [] => by simp
  | s :: ss => by simp [s.named_idents, Stmt.named_all ss]

theorem Declarator.named_idents : ∀ d : Declarator, named x d.idents ↔ d.Mentions x
  | .mk _ _ _ e => by simp [e.named_idents]

theorem Declarator.named_all :
    ∀ ds : List Declarator, named x (ds.flatMap Declarator.idents) ↔ Declarator.AnyMentions x ds
  | [] => by simp
  | d :: ds => by simp [d.named_idents, Declarator.named_all ds]

theorem Member.named_idents : ∀ m : Member, named x m.idents ↔ m.Mentions x
  | .ctor _ ps b => by simp [Param.named_all ps, b.named_idents]
  | .method _ _ _ ps b => by simp [Param.named_all ps, b.named_idents]
  | .field _ _ _ _ e => by simp [e.named_idents]

theorem Member.named_all :
    ∀ ms : List Member, named x (ms.flatMap Member.idents) ↔ Member.AnyMentions x ms
  | [] => by simp
  | m :: ms => by simp [m.named_idents, Member.named_all ms]

end

end

/-- The walk over a file lists exactly the names that the file mentions. -/
theorem File.mentions_iff (f : File) : f.Mentions x ↔ x ∈ f.names := by
  rw [names, Node.idents_file, List.mem_map]
  exact (Stmt.named_all x f.stmts).symm

end ExtensionLowering
