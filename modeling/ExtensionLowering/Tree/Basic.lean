import ExtensionLowering.Token
import ExtensionLowering.Facts.Declaration
/-!
# Syntax trees

The TypeScript trees that are lowered and printed. A tree carries, at the sites the checker looks
at, the facts it resolved there; generated nodes carry none. A tree may be incomplete: `missing`
stands wherever a part was not given, and an optional part that is absent is `missing` too.
-/
namespace ExtensionLowering

/-- A name. Identifiers are told apart by their text, but several occurrences of one shared
identifier, such as the alias of an import, have the same mark. -/
structure Ident where
  token : Token := {}
  name : String
  mark : Option Nat := none
  globalImport : Option GlobalImport := none
  /-- Is it passed unevaluated, wherever it is an argument? -/
  lazy : Bool := false
  deriving Repr, DecidableEq

/-- What every expression carries: its token, and whether it is passed unevaluated. -/
structure Info where
  token : Token := {}
  lazy : Bool := false
  deriving Repr, DecidableEq

inductive TypeRef where
  | missing
  | named (token : Token) (name : String) (args : List TypeRef)

inductive VarKind where
  | const
  | let
  | var
  deriving Repr, DecidableEq

def VarKind.keyword : VarKind → String
  | .const => "const"
  | .let => "let"
  | .var => "var"

def VarKind.ofIndex? : Int → Option VarKind
  | 0 => some .const
  | 1 => some .let
  | 2 => some .var
  | _ => none

/-- One entry of an import or export list, `name as alias`. In an export the name is the local
binding. -/
structure Specifier where
  name : Option Ident := none
  newName : Option Ident := none
  deriving Repr, DecidableEq

mutual

inductive Expr where
  | missing
  | ident (id : Ident)
  | number (info : Info) (text : String)
  | string (info : Info) (value : String)
  | bool (info : Info) (value : Bool)
  | this (info : Info)
  | super (info : Info)
  | prop (info : Info) (facts : SiteFacts) (object : Expr) (name : Option Ident) (optional : Bool)
  | elem (info : Info) (facts : SiteFacts) (object index : Expr)
  | call (info : Info) (facts : CallFacts) (callee : Expr) (typeArgs : List TypeRef)
      (args : List Expr)
  | new (info : Info) (callee : Expr) (typeArgs : List TypeRef) (args : List Expr)
  | binary (info : Info) (facts : SiteFacts) (left : Expr) (op : String) (right : Expr)
  | unary (info : Info) (op : String) (operand : Expr)
  | cond (info : Info) (test yes no : Expr)
  | paren (info : Info) (inner : Expr)
  | void (info : Info) (inner : Expr)
  | spread (info : Info) (inner : Expr)
  | array (info : Info) (elems : List Expr)
  | object (info : Info) (props : List Property)
  /-- An arrow function has a block body, or else a concise result. -/
  | arrow (info : Info) (params : List Param) (body : Block) (result : Expr)
  | func (info : Info) (name : Option Ident) (params : List Param) (body : Block)

inductive Property where
  | assign (token : Token) (key value : Expr)
  | shorthand (token : Token) (name : Option Ident)
  | spread (token : Token) (inner : Expr)

inductive Param where
  | mk (token : Token) (name : Option Ident) (type : TypeRef) (optional rest : Bool) (init : Expr)

/-- A list of statements in braces, with the declarations that need a pinned copy in it. -/
inductive Block where
  | missing
  | mk (token : Token) (unique : List DeclId) (stmts : List Stmt)

inductive Stmt where
  | missing
  | block (body : Block)
  | expr (token : Token) (inner : Expr)
  | ret (token : Token) (value : Expr)
  | throw (token : Token) (value : Expr)
  | cond (token : Token) (test : Expr) (yes no : Stmt)
  | varDecl (token : Token) (exported : Bool) (kind : VarKind) (decls : List Declarator)
  | funcDecl (token : Token) (exported : Bool) (name : Option Ident) (params : List Param)
      (result : TypeRef) (body : Block)
  | classDecl (token : Token) (exported : Bool) (name : Option Ident) (base : Expr)
      (members : List Member)
  | importDecl (token : Token) (space default : Option Ident) (named : List Specifier)
      (module : Option String)
  | exportDecl (token : Token) (named : List Specifier)

inductive Declarator where
  | mk (token : Token) (name : Option Ident) (type : TypeRef) (init : Expr)

inductive Member where
  | ctor (token : Token) (params : List Param) (body : Block)
  | method (token : Token) (static : Bool) (name : Option Ident) (params : List Param) (body : Block)
  | field (token : Token) (static : Bool) (name : Option Ident) (type : TypeRef) (init : Expr)

end

/-- A source file, with the declarations that need a pinned copy at its top level. -/
structure File where
  name : String := ""
  unique : List DeclId := []
  stmts : List Stmt := []

inductive Node where
  | file (f : File)
  | block (b : Block)
  | stmt (s : Stmt)
  | declarator (d : Declarator)
  | member (m : Member)
  | expr (e : Expr)
  | property (p : Property)
  | param (p : Param)
  | type (t : TypeRef)

namespace Expr

def token : Expr → Token
  | .missing => {}
  | .ident id => id.token
  | .number i _ | .string i _ | .bool i _ | .this i | .super i | .prop i .. | .elem i ..
  | .call i .. | .new i .. | .binary i .. | .unary i .. | .cond i .. | .paren i _ | .void i _
  | .spread i _ | .array i _ | .object i _ | .arrow i .. | .func i .. => i.token

/-- Whether the checker flags the expression as passed unevaluated. -/
def lazy : Expr → Bool
  | .missing => false
  | .ident id => id.lazy
  | .number i _ | .string i _ | .bool i _ | .this i | .super i | .prop i .. | .elem i ..
  | .call i .. | .new i .. | .binary i .. | .unary i .. | .cond i .. | .paren i _ | .void i _
  | .spread i _ | .array i _ | .object i _ | .arrow i .. | .func i .. => i.lazy

def isMissing : Expr → Bool
  | .missing => true
  | _ => false

def isSpread : Expr → Bool
  | .spread .. => true
  | _ => false

def isSuper : Expr → Bool
  | .super _ => true
  | _ => false

/-- An object key that is written as it is: a name, a string or a number. -/
def isLiteralKey : Expr → Bool
  | .ident _ | .string .. | .number .. => true
  | _ => false

end Expr

def Property.token : Property → Token
  | .assign t .. | .shorthand t _ | .spread t _ => t

def Param.token : Param → Token
  | .mk t .. => t

def Param.name : Param → Option Ident
  | .mk _ n .. => n

def Param.init : Param → Expr
  | .mk _ _ _ _ _ e => e

def Block.token : Block → Token
  | .missing => {}
  | .mk t .. => t

def Block.isMissing : Block → Bool
  | .missing => true
  | _ => false

def Block.stmts : Block → List Stmt
  | .missing => []
  | .mk _ _ ss => ss

def Stmt.isMissing : Stmt → Bool
  | .missing => true
  | _ => false

def Stmt.token : Stmt → Token
  | .missing => {}
  | .block b => b.token
  | .expr t _ | .ret t _ | .throw t _ | .cond t .. | .varDecl t .. | .funcDecl t .. | .classDecl t ..
  | .importDecl t .. | .exportDecl t _ => t

def Declarator.token : Declarator → Token
  | .mk t .. => t

def Declarator.name : Declarator → Option Ident
  | .mk _ n .. => n

def Declarator.init : Declarator → Expr
  | .mk _ _ _ e => e

def Member.token : Member → Token
  | .ctor t .. | .method t .. | .field t .. => t

def TypeRef.isMissing : TypeRef → Bool
  | .missing => true
  | _ => false

def TypeRef.token : TypeRef → Token
  | .missing => {}
  | .named t .. => t

end ExtensionLowering
