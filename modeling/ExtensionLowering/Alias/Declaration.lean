import ExtensionLowering.Name.Table
/-!
# Moving declarations to their aliases

A top-level function, class or variable that is referred to through an alias is declared under the
alias. If it was exported, its name is exported again: as a constant where the binding cannot change,
else through an export list, so that later assignments are seen. A moved class still reports its
name.
-/
namespace ExtensionLowering

abbrev Aliases := List (String × Alias)

abbrev Renaming := List (String × Ident)

/-- `export const name = alias` -/
def forwardExport (name : String) (binding : Ident) : Stmt :=
  .constant (.synthetic name) (.ofIdent binding) true

/-- `Object.defineProperty(alias, "name", { value: "name" })` -/
def restoreClassName (name : String) (binding : Ident) : Stmt :=
  let value : Property := .assign binding.token (.ofName "value") (.ofString name)
  .ofExpr (((Expr.ofName "Object").member "defineProperty").apply
    [.ofIdent binding, .ofString "name", .ofProperties [value]])

namespace Aliases

def moved? (as : Aliases) (name : Option Ident) : Option (String × Ident) :=
  name.bind fun id => (as.lookup id.name).map fun a => (id.name, a.ident)

def moveDeclarator (as : Aliases) (token : Token) (exported : Bool) (kind : VarKind) :
    Declarator → List Stmt
  | .mk t name type init =>
    match as.moved? name with
    | none => [.varDecl token exported kind [.mk t name type init]]
    | some (orig, binding) =>
      .varDecl token false kind [.mk t (some binding) type init] ::
        if ! exported then []
        else if kind = .const then [forwardExport orig binding]
        else [.exportAs binding orig]

def moveStmt (as : Aliases) : Stmt → List Stmt
  | .funcDecl t exported name ps result body =>
    match as.moved? name with
    | none => [.funcDecl t exported name ps result body]
    | some (orig, binding) =>
      .funcDecl t false (some binding) ps result body ::
        if exported then [forwardExport orig binding] else []
  | .classDecl t exported name base ms =>
    match as.moved? name with
    | none => [.classDecl t exported name base ms]
    | some (orig, binding) =>
      .classDecl t false (some binding) base ms :: restoreClassName orig binding ::
        if exported then [forwardExport orig binding] else []
  | .varDecl t exported kind ds =>
    if ds.any fun d => (as.moved? d.name).isSome then
      ds.flatMap (as.moveDeclarator t exported kind)
    else [.varDecl t exported kind ds]
  | s => [s]

def moveAll (as : Aliases) (stmts : List Stmt) : List Stmt :=
  stmts.flatMap as.moveStmt

def declaredBy : Stmt → List (Option Ident)
  | .funcDecl _ _ name _ _ _ => [name]
  | .classDecl _ _ name _ _ => [name]
  | .varDecl _ _ _ ds => ds.map (·.name)
  | _ => []

def renames (as : Aliases) (stmts : List Stmt) : Renaming :=
  (stmts.flatMap declaredBy).filterMap as.moved?

/-- Aliases that no top-level declaration took: the marks of their identifiers with the names these
fall back to. -/
def untaken (as : Aliases) (r : Renaming) : List (Nat × String) :=
  as.filterMap fun (name, a) =>
    if (r.lookup name).isSome then none else a.ident.mark.map (·, name)

/-- Can declarations be told by name? -/
def allNamed (stmts : List Stmt) : Bool :=
  (stmts.flatMap declaredBy).all (·.isSome)

end Aliases

end ExtensionLowering
