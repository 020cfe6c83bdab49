import ExtensionLowering.Tree.Basic
import ExtensionLowering.Text.Quoted
import ExtensionLowering.Decimal.Shortest
/-!
# Generated nodes

Constructors of the nodes that lowering inserts. They carry synthetic tokens without a position, and
no facts.
-/
namespace ExtensionLowering

def Info.synthetic (lexeme : String) : Info :=
  { token := Token.synthetic lexeme }

def Ident.synthetic (name : String) : Ident :=
  { token := Token.synthetic name, name }

/-- The identifier with another text, in its token too. -/
def Ident.rename (id : Ident) (name : String) : Ident :=
  { id with name, token := { id.token with lexeme := name } }

namespace Expr

def ofIdent (id : Ident) : Expr :=
  .ident id

def ofName (name : String) : Expr :=
  .ofIdent (.synthetic name)

def ofString (value : String) : Expr :=
  .string (.synthetic (Text.quote value)) value

def ofFloat (value : Float) : Expr :=
  .number (.synthetic (Decimal.ofFloat value)) (Decimal.ofFloat value)

def ofBool (value : Bool) : Expr :=
  .bool (.synthetic (if value then "true" else "false")) value

/-- `object.name` -/
def member (object : Expr) (name : String) : Expr :=
  .prop (.synthetic name) {} object (some (.synthetic name)) false

/-- `callee<typeArgs>(args)` -/
def applyTyped (callee : Expr) (typeArgs : List TypeRef) (args : List Expr) : Expr :=
  .call (.synthetic "(") {} callee typeArgs args

/-- `callee(args)` -/
def apply (callee : Expr) (args : List Expr) : Expr :=
  callee.applyTyped [] args

end Expr

/-- A parameter without annotation or default. -/
def Param.ofIdent (id : Ident) : Param :=
  .mk id.token (some id) .missing false false .missing

def Block.ofStmts (stmts : List Stmt) : Block :=
  .mk (.synthetic "\x7b") [] stmts

namespace Expr

/-- `(params) => result` -/
def lambda (params : List Ident) (result : Expr) : Expr :=
  .arrow (.synthetic "=>") (params.map .ofIdent) .missing result

/-- `(params) => { stmts }` -/
def lambdaBlock (params : List Ident) (stmts : List Stmt) : Expr :=
  .arrow (.synthetic "=>") (params.map .ofIdent) (.ofStmts stmts) .missing

/-- `() => result` -/
def thunk (result : Expr) : Expr :=
  lambda [] result

/-- `(() => { stmts })()` -/
def immediate (stmts : List Stmt) : Expr :=
  (lambdaBlock [] stmts).apply []

/-- `void 0` -/
def voidZero : Expr :=
  .void (.synthetic "void") (.number (.synthetic "0") "0")

def ofProperties (props : List Property) : Expr :=
  .object (.synthetic "\x7b") props

def ofElems (elems : List Expr) : Expr :=
  .array (.synthetic "[") elems

/-- `left op right` -/
def infixOp (left : Expr) (op : String) (right : Expr) : Expr :=
  .binary (.synthetic op) {} left op right

end Expr

namespace Property

/-- `"key": value` -/
def quoted (key : String) (value : Expr) : Property :=
  .assign (.synthetic key) (.ofString key) value

/-- `...inner` -/
def spreading (inner : Expr) : Property :=
  .spread (.synthetic "...") inner

end Property

namespace Stmt

def returning (value : Expr) : Stmt :=
  .ret (.synthetic "return") value

def ofExpr (e : Expr) : Stmt :=
  .expr (.synthetic "") e

/-- `const name = init`, exported or not. -/
def constant (name : Ident) (init : Expr) (exported : Bool) : Stmt :=
  .varDecl (.synthetic "const") exported .const [.mk name.token (some name) .missing init]

/-- `import * as alias from "path"` -/
def namespaceImport (binding : Ident) (path : String) : Stmt :=
  .importDecl (.synthetic "import") (some binding) none [] (some path)

/-- `export { local as name }` -/
def exportAs (binding : Ident) (name : String) : Stmt :=
  .exportDecl (.synthetic "export") [{ name := some binding, newName := some (.synthetic name) }]

/-- `throw new Error(message)` -/
def throwing (message : String) : Stmt :=
  .throw (.synthetic "throw")
    (.new (.synthetic "new") (.ofName "Error") [] [.ofString message])

end Stmt

end ExtensionLowering
