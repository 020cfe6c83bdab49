import ExtensionLowering.Lowering.State
/-!
# Pinned copies

A scope can ask for copies `const pinned = name` of declarations that nested derivations refer to. A
copy stands right after the constant it copies; one whose constant is not among the statements of the
scope is left over. The copies of a scope wait in a map until they are placed.
-/
namespace ExtensionLowering

structure Pin where
  name : String
  /-- The line of its declaration, zero when unknown. -/
  line : Int
  ident : Ident
  deriving Repr, DecidableEq

namespace Pin

/-- `const pinned = name` -/
def stmt (p : Pin) : Stmt :=
  .constant p.ident (.ofName p.name) false

/-- Does a declarator declare what is copied? Lines are compared when both are known. -/
def fits (p : Pin) (d : Declarator) : Bool :=
  d.name.any (·.name = p.name) &&
    ! (p.line ≠ 0 && d.token.hasPosition && p.line ≠ d.token.line)

/-- The pins that declarators take, in their order, and the pins left. -/
def take : List Pin → List Declarator → List Pin × List Pin
  | ps, [] => ([], ps)
  | ps, d :: ds =>
    let (now, later) := ps.partition (·.fits d)
    let (more, rest) := take later ds
    (now ++ more, rest)

def constants : Stmt → List Declarator
  | .varDecl _ _ .const ds => ds
  | _ => []

/-- The pins that stand right after a statement, and the pins left. -/
def after (ps : List Pin) (s : Stmt) : List Pin × List Pin :=
  take ps (constants s)

/-- Statements with the pins behind the constants they copy, and the pins left over. -/
def place : List Pin → List Stmt → List Stmt × List Pin
  | ps, [] => ([], ps)
  | ps, s :: ss =>
    let (now, later) := after ps s
    let (out, rest) := place later ss
    (s :: now.map stmt ++ out, rest)

/-- Is there a declarator without a name while a pin is looked for? -/
def unnamed : List Pin → List Declarator → Bool
  | _, [] => false
  | ps, d :: ds =>
    (! ps.isEmpty && d.name.isNone) || unnamed (ps.filter (! ·.fits d)) ds

/-- Statements among which pins cannot be looked for. -/
def blocked : List Pin → List Stmt → Bool
  | _, [] => false
  | ps, s :: ss => unnamed ps (constants s) || blocked (after ps s).2 ss

end Pin

namespace Lower

def pinName (d : DeclId) (base : String) : Lower Ident := do
  let id ← fresh base
  modify fun s => { s with pinned := (d, id) :: s.pinned }
  return id

/-- Names the copies that a scope asks for and that no scope asked for before. -/
def registerPins (env : Env) : List DeclId → Lower (List Pin)
  | [] => return []
  | d :: ds => do
    if ((← get).pinned.lookup d).isSome then registerPins env ds
    else
      let decl := (env.compilation.declaration? (some d)).getD {}
      let id ← pinName d decl.name
      let pins ← registerPins env ds
      return { name := decl.name, line := decl.line, ident := id } :: pins

/-- Places pins among the statements of a file; the pins left over are given back. -/
def placePins (pins : List Pin) (stmts : List Stmt) : Lower (List Stmt × List Pin) := do
  if Pin.blocked pins stmts then giveUp
  return Pin.place pins stmts

/-- Places pins among the statements of a block; the pins left over go to its top. -/
def insertPins (pins : List Pin) (stmts : List Stmt) : Lower (List Stmt) := do
  let (stmts, rest) ← placePins pins stmts
  return rest.map Pin.stmt ++ stmts

end Lower

/-- What pins are kept for. A block is known by its token. -/
inductive Scope where
  | file
  | block (token : Token)
  deriving DecidableEq

/-- The pins of scopes that are named and not placed yet. -/
abbrev Hoists := List (Scope × List Pin)

namespace Hoists

def pins (hs : Hoists) (scope : Scope) : List Pin :=
  (hs.lookup scope).getD []

def delete (hs : Hoists) (scope : Scope) : Hoists :=
  hs.filter (·.1 ≠ scope)

end Hoists

namespace Lower

def registerHoists (env : Env) (scope : Scope) (unique : List DeclId) :
    StateT Hoists Lower Unit := do
  let pins ← registerPins env unique
  modify fun hs => (scope, Hoists.pins hs scope ++ pins) :: Hoists.delete hs scope

/-- The pins of a scope, which are kept no longer. -/
def takeHoists (scope : Scope) : StateT Hoists Lower (List Pin) :=
  modifyGet fun hs => (Hoists.pins hs scope, Hoists.delete hs scope)

def placeHoists (scope : Scope) (stmts : List Stmt) :
    StateT Hoists Lower (List Stmt × List Pin) := do
  placePins (← takeHoists scope) stmts

def insertHoists (scope : Scope) (stmts : List Stmt) : StateT Hoists Lower (List Stmt) := do
  insertPins (← takeHoists scope) stmts

end Lower

end ExtensionLowering
