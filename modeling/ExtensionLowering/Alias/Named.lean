import ExtensionLowering.Alias.Declaration
/-!
# Trees whose bindings are named

References can be renamed below a scope only when everything the scope binds has a name, and every
shorthand property too.
-/
namespace ExtensionLowering

mutual

def Expr.isNamed : Expr → Bool
  | .missing | .ident _ | .number .. | .string .. | .bool .. | .this _ | .super _ => true
  | .prop _ _ o _ _ => o.isNamed
  | .elem _ _ o x => o.isNamed && x.isNamed
  | .call _ _ c _ as | .new _ c _ as => c.isNamed && Expr.allNamed as
  | .binary _ _ l _ r => l.isNamed && r.isNamed
  | .unary _ _ e | .paren _ e | .void _ e | .spread _ e => e.isNamed
  | .cond _ c t e => c.isNamed && t.isNamed && e.isNamed
  | .array _ es => Expr.allNamed es
  | .object _ ps => Property.allNamed ps
  | .arrow _ ps b e => Param.allNamed ps && b.isNamed && (! b.isMissing || e.isNamed)
  | .func _ _ ps b => Param.allNamed ps && b.isNamed

def Expr.allNamed : List Expr → Bool
  | [] => true
  | e :: es => e.isNamed && Expr.allNamed es

def Property.isNamed : Property → Bool
  | .assign _ k v => (k.isLiteralKey || k.isNamed) && v.isNamed
  | .shorthand _ name => name.isSome
  | .spread _ e => e.isNamed

def Property.allNamed : List Property → Bool
  | [] => true
  | p :: ps => p.isNamed && Property.allNamed ps

def Param.isNamed : Param → Bool
  | .mk _ name _ _ _ init => name.isSome && init.isNamed

def Param.allNamed : List Param → Bool
  | [] => true
  | p :: ps => p.isNamed && Param.allNamed ps

def Block.isNamed : Block → Bool
  | .missing => true
  | .mk _ _ ss => Aliases.allNamed ss && Stmt.allNamed ss

def Stmt.isNamed : Stmt → Bool
  | .missing => true
  | .block b => b.isNamed
  | .expr _ e | .ret _ e | .throw _ e => e.isNamed
  | .cond _ c y n => c.isNamed && y.isNamed && n.isNamed
  | .varDecl _ _ _ ds => Declarator.allNamed ds
  | .funcDecl _ _ _ ps _ b => Param.allNamed ps && b.isNamed
  | .classDecl _ _ _ base ms => base.isNamed && Member.allNamed ms
  | .importDecl .. | .exportDecl .. => true

def Stmt.allNamed : List Stmt → Bool
  | [] => true
  | s :: ss => s.isNamed && Stmt.allNamed ss

def Declarator.isNamed : Declarator → Bool
  | .mk _ _ _ init => init.isNamed

def Declarator.allNamed : List Declarator → Bool
  | [] => true
  | d :: ds => d.isNamed && Declarator.allNamed ds

def Member.isNamed : Member → Bool
  | .ctor _ ps b => Param.allNamed ps && b.isNamed
  | .method _ _ _ ps b => Param.allNamed ps && b.isNamed
  | .field _ _ _ _ init => init.isNamed

def Member.allNamed : List Member → Bool
  | [] => true
  | m :: ms => m.isNamed && Member.allNamed ms

end

end ExtensionLowering
