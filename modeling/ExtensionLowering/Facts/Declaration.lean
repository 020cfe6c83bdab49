/-!
# Declarations and signatures

What the checker resolved for the sites of a program: declarations, the extensions behind call-like
sites, data-first variants, formal parameters, Do blocks and global imports. Declarations are
compared by identity, so facts refer to them by their position in a table.
-/
namespace ExtensionLowering

abbrev DeclId := Nat

abbrev DerivId := Nat

inductive Intrinsic where
  | pipe
  | identity
  | remove
  | derive
  deriving Repr, DecidableEq

def Intrinsic.ofName? : String → Option Intrinsic
  | "pipe" => some .pipe
  | "identity" => some .identity
  | "remove" => some .remove
  | "Derive" => some .derive
  | _ => none

inductive DeclKind where
  | function
  | variable
  | classType
  | arrow
  | functionExpr
  | call
  | other
  deriving Repr, DecidableEq

/-- A declaration of a named kind carries its own export name. -/
def DeclKind.isNamed : DeclKind → Bool
  | .function | .variable | .classType => true
  | _ => false

def DeclKind.all : List DeclKind :=
  [.function, .variable, .classType, .arrow, .functionExpr, .call, .other]

def DeclKind.ofIndex? : Int → Option DeclKind
  | .ofNat n => DeclKind.all[n]?
  | .negSucc _ => none

structure Declaration where
  name : String := ""
  file : String := ""
  kind : DeclKind := .function
  exported : Bool := false
  /-- An import path that overrides the configured one when it is not empty. -/
  location : String := ""
  line : Int := 0
  /-- The enclosing declaration, such as the variable an arrow function is assigned to. -/
  parent : Option DeclId := none
  intrinsic : Option Intrinsic := none
  deriving Repr, DecidableEq, Inhabited

inductive ExtensionKind where
  | fluent
  | getter
  | static
  | operator
  | indexer
  | call
  deriving Repr, DecidableEq

def ExtensionKind.all : List ExtensionKind :=
  [.fluent, .getter, .static, .operator, .indexer, .call]

def ExtensionKind.ofIndex? : Int → Option ExtensionKind
  | .ofNat n => ExtensionKind.all[n]?
  | .negSucc _ => none

def ExtensionKind.label : ExtensionKind → String
  | .fluent => "fluent"
  | .getter => "getter"
  | .static => "static"
  | .operator => "operator"
  | .indexer => "indexer"
  | .call => "call"

def ExtensionKind.ofLabel? (s : String) : Option ExtensionKind :=
  ExtensionKind.all.find? (·.label == s)

/-- The extension behind a call-like site. -/
structure Signature where
  kind : ExtensionKind := .fluent
  decl : Option DeclId := none
  /-- The name to call in the declaring module; empty means the declaration's own name. -/
  exportName : String := ""
  pipeable : Bool := false
  fluent : Bool := false
  trace : Bool := false
  deriving Repr, DecidableEq

/-- The data-first variant of a curried extension. -/
structure Target where
  decl : Option DeclId := none
  exportName : String := ""
  deriving Repr, DecidableEq

/-- A formal parameter of a resolved call. An automatic parameter without an argument is filled with
its derivation. -/
structure Formal where
  name : String := ""
  automatic : Bool := false
  derivation : Option DerivId := none
  trace : Bool := false
  deriving Repr, DecidableEq

structure DoBlock where
  map : Option Signature := none
  flatMap : Option Signature := none
  deriving Repr, DecidableEq

/-- What an identifier that is bound to a global import stands for. -/
structure GlobalImport where
  path : String := ""
  name : String := ""
  deriving Repr, DecidableEq

/-- Facts of a binary operator, a property access or an element access. -/
structure SiteFacts where
  signature : Option Signature := none
  intrinsic : Option Intrinsic := none
  deriving Repr, DecidableEq

structure CallFacts extends SiteFacts where
  fluent : Bool := false
  extension : Option Signature := none
  formals : Option (List Formal) := none
  dataFirst : Option Target := none
  doBlock : Option DoBlock := none
  /-- The call binds an effect inside a Do block. -/
  bind : Bool := false
  derivation : Option DerivId := none
  deriving Repr, DecidableEq

/-- Whether the checker takes the call for a fluent one. -/
def CallFacts.isFluent (f : CallFacts) : Bool :=
  f.fluent || (f.signature.any fun s => s.kind = .fluent)

end ExtensionLowering
