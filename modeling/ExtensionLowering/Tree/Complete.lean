import ExtensionLowering.Tree.Printer
/-!
# Complete trees

A tree can be printed when every part that has to be written is there: names of declarations,
parameters and members, bodies, the branch of an `if`, the module of an import, type arguments and
object keys. Missing expressions and statements in lists have a text of their own and do not count.
-/
namespace ExtensionLowering

mutual

def TypeRef.isComplete : TypeRef → Bool
  | .missing => false
  | .named _ _ args => TypeRef.allComplete args

def TypeRef.allComplete : List TypeRef → Bool
  | [] => true
  | t :: ts => t.isComplete && TypeRef.allComplete ts

end

/-- An annotation may be absent. -/
def TypeRef.isCompleteAnnotation (t : TypeRef) : Bool :=
  t.isMissing || t.isComplete

def specifiersComplete (specs : List Specifier) : Bool :=
  specs.all (·.name.isSome)

mutual

def Expr.isComplete : Expr → Bool
  | .missing | .ident _ | .number .. | .string .. | .bool .. | .this _ | .super _ => true
  | .prop _ _ o name _ => o.isComplete && name.isSome
  | .elem _ _ o x => o.isComplete && x.isComplete
  | .call _ _ c ts as | .new _ c ts as =>
    c.isComplete && TypeRef.allComplete ts && Expr.allComplete as
  | .binary _ _ l _ r => l.isComplete && r.isComplete
  | .unary _ _ e | .paren _ e | .void _ e | .spread _ e => e.isComplete
  | .cond _ c t e => c.isComplete && t.isComplete && e.isComplete
  | .array _ es => Expr.allComplete es
  | .object _ ps => Property.allComplete ps
  | .arrow _ ps b e =>
    Param.allComplete ps && if b.isMissing then e.isComplete else b.isComplete
  | .func _ _ ps b => Param.allComplete ps && b.isComplete

def Expr.allComplete : List Expr → Bool
  | [] => true
  | e :: es => e.isComplete && Expr.allComplete es

def Property.isComplete : Property → Bool
  | .assign _ k v => !k.isMissing && k.isComplete && v.isComplete
  | .shorthand _ name => name.isSome
  | .spread _ e => e.isComplete

def Property.allComplete : List Property → Bool
  | [] => true
  | p :: ps => p.isComplete && Property.allComplete ps

def Param.isComplete : Param → Bool
  | .mk _ name type _ _ init => name.isSome && type.isCompleteAnnotation && init.isComplete

def Param.allComplete : List Param → Bool
  | [] => true
  | p :: ps => p.isComplete && Param.allComplete ps

def Block.isComplete : Block → Bool
  | .missing => false
  | .mk _ _ ss => Stmt.allComplete ss

def Stmt.isComplete : Stmt → Bool
  | .missing => true
  | .block b => b.isComplete
  | .expr _ e | .ret _ e | .throw _ e => e.isComplete
  | .cond _ c y n => c.isComplete && !y.isMissing && y.isComplete && n.isComplete
  | .varDecl _ _ _ ds => Declarator.allComplete ds
  | .funcDecl _ _ name ps result b =>
    name.isSome && Param.allComplete ps && result.isCompleteAnnotation && b.isComplete
  | .classDecl _ _ name base ms => name.isSome && base.isComplete && Member.allComplete ms
  | .importDecl _ _ _ named module => specifiersComplete named && module.isSome
  | .exportDecl _ named => specifiersComplete named

def Stmt.allComplete : List Stmt → Bool
  | [] => true
  | s :: ss => s.isComplete && Stmt.allComplete ss

def Declarator.isComplete : Declarator → Bool
  | .mk _ name type init => name.isSome && type.isCompleteAnnotation && init.isComplete

def Declarator.allComplete : List Declarator → Bool
  | [] => true
  | d :: ds => d.isComplete && Declarator.allComplete ds

def Member.isComplete : Member → Bool
  | .ctor _ ps b => Param.allComplete ps && b.isComplete
  | .method _ _ name ps b => name.isSome && Param.allComplete ps && b.isComplete
  | .field _ _ name type init => name.isSome && type.isCompleteAnnotation && init.isComplete

def Member.allComplete : List Member → Bool
  | [] => true
  | m :: ms => m.isComplete && Member.allComplete ms

end

def File.isComplete (f : File) : Bool :=
  Stmt.allComplete f.stmts

def File.render (f : File) : String :=
  String.join (Stmt.renders 0 f.stmts)

def File.print? (f : File) : Option String :=
  if f.isComplete then some f.render else none

namespace Node

def isComplete : Node → Bool
  | .file f => f.isComplete
  | .block b => b.isComplete
  | .stmt s => !s.isMissing && s.isComplete
  | .declarator d => d.isComplete
  | .member m => m.isComplete
  | .expr e => !e.isMissing && e.isComplete
  | .property p => p.isComplete
  | .param p => p.isComplete
  | .type t => t.isComplete

def render : Node → String
  | .file f => f.render
  | .block b => b.render 0
  | .stmt s => s.render 0
  | .declarator d => d.render 0
  | .member m => m.render 0
  | .expr e => e.render 0
  | .property p => p.render 0
  | .param p => p.render 0
  | .type t => t.render

def print? (n : Node) : Option String :=
  if n.isComplete then some n.render else none

end Node

end ExtensionLowering
