import ExtensionLowering.Facts.Declaration
/-!
# Derivations

A derivation is a plan for building an implicit value. The plans of a compilation form a graph:
nodes refer to one another by position, may be shared, and may close cycles through `prior`. A
missing plan is `none`.
-/
namespace ExtensionLowering

/-- A constant of a derivation. `shown` is a value of any other sort, by its printed form. -/
inductive Literal where
  | text (value : String)
  | bool (value : Bool)
  | integer (value : Int)
  | single (value : Float32)
  | double (value : Float)
  | shown (value : String)

inductive Derivation where
  | blockScope (decl : Option DeclId)
  | implicitScope (decl : Option DeclId)
  | emptyObject
  | literal (value : Literal)
  | intersection (fields : List (Option DerivId))
  | object (fields : List (String × Option DerivId))
  | tuple (fields : List (Option DerivId))
  | prior (target : Option DerivId)
  /-- A call of a derivation rule. A rule with users refers to itself and is wrapped by its lazy
  rule. -/
  | rule (rule : Option DeclId) (args : List (Option DerivId)) (users : Nat)
      (lazyRule : Option DeclId)
  | invalid (message : String)

/-- The declarations and derivations that the facts of a compilation refer to. -/
structure Compilation where
  declarations : Array Declaration := #[]
  derivations : Array Derivation := #[]

namespace Compilation

def declaration? (c : Compilation) (d : Option DeclId) : Option Declaration :=
  d.bind (c.declarations[·]?)

def derivation? (c : Compilation) (d : DerivId) : Option Derivation :=
  c.derivations[d]?

/-- The file that declares the extension, empty when the declaration is unknown. -/
def definitionFile (c : Compilation) (s : Signature) : String :=
  (c.declaration? s.decl).elim "" (·.file)

/-- The declaration itself, or the nearest of its two enclosing ones, that carries an export name. -/
def operatorDeclaration? (c : Compilation) (d : Option DeclId) : Option Declaration :=
  go 3 d
where
  go : Nat → Option DeclId → Option Declaration
    | 0, _ => none
    | n + 1, d =>
      (c.declaration? d).bind fun decl => if decl.kind.isNamed then some decl else go n decl.parent

end Compilation

end ExtensionLowering
