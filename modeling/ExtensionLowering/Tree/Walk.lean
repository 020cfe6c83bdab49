import ExtensionLowering.Tree.Basic
/-!
# Walking a tree

`Node.walk f` lists the nodes of a tree in pre-order; below a node that `f` refuses nothing is
listed. Missing parts are not nodes, and neither are type annotations below a node nor the module
of an import.
-/
namespace ExtensionLowering

/-- A name in binding position is a node of its own. -/
def identNodes : Option Ident → List Node
  | none => []
  | some id => [.expr (.ident id)]

def specifierNodes (specs : List Specifier) : List Node :=
  specs.flatMap fun s => identNodes s.name ++ identNodes s.newName

/-- A node followed by what lies below it, unless `f` refuses the node. -/
def visited (f : Node → Bool) (n : Node) (below : List Node) : List Node :=
  n :: if f n then below else []

mutual

def Expr.walk (f : Node → Bool) : Expr → List Node
  | .missing => []
  | .ident id => visited f (.expr (.ident id)) []
  | .number i t => visited f (.expr (.number i t)) []
  | .string i v => visited f (.expr (.string i v)) []
  | .bool i v => visited f (.expr (.bool i v)) []
  | .this i => visited f (.expr (.this i)) []
  | .super i => visited f (.expr (.super i)) []
  | .prop i s o n q => visited f (.expr (.prop i s o n q)) (o.walk f ++ identNodes n)
  | .elem i s o x => visited f (.expr (.elem i s o x)) (o.walk f ++ x.walk f)
  | .call i s c ts as => visited f (.expr (.call i s c ts as)) (c.walk f ++ Expr.walks f as)
  | .new i c ts as => visited f (.expr (.new i c ts as)) (c.walk f ++ Expr.walks f as)
  | .binary i s l op r => visited f (.expr (.binary i s l op r)) (l.walk f ++ r.walk f)
  | .unary i op e => visited f (.expr (.unary i op e)) (e.walk f)
  | .cond i c t e => visited f (.expr (.cond i c t e)) (c.walk f ++ t.walk f ++ e.walk f)
  | .paren i e => visited f (.expr (.paren i e)) (e.walk f)
  | .void i e => visited f (.expr (.void i e)) (e.walk f)
  | .spread i e => visited f (.expr (.spread i e)) (e.walk f)
  | .array i es => visited f (.expr (.array i es)) (Expr.walks f es)
  | .object i ps => visited f (.expr (.object i ps)) (Property.walks f ps)
  | .arrow i ps b e =>
    visited f (.expr (.arrow i ps b e)) (Param.walks f ps ++ b.walk f ++ e.walk f)
  | .func i n ps b =>
    visited f (.expr (.func i n ps b)) (identNodes n ++ Param.walks f ps ++ b.walk f)

def Expr.walks (f : Node → Bool) : List Expr → List Node
  | [] => []
  | e :: es => e.walk f ++ Expr.walks f es

def Property.walk (f : Node → Bool) : Property → List Node
  | .assign t k v => visited f (.property (.assign t k v)) (k.walk f ++ v.walk f)
  | .shorthand t n => visited f (.property (.shorthand t n)) (identNodes n)
  | .spread t e => visited f (.property (.spread t e)) (e.walk f)

def Property.walks (f : Node → Bool) : List Property → List Node
  | [] => []
  | p :: ps => p.walk f ++ Property.walks f ps

def Param.walk (f : Node → Bool) : Param → List Node
  | .mk t n ty o r e => visited f (.param (.mk t n ty o r e)) (identNodes n ++ e.walk f)

def Param.walks (f : Node → Bool) : List Param → List Node
  | [] => []
  | p :: ps => p.walk f ++ Param.walks f ps

def Block.walk (f : Node → Bool) : Block → List Node
  | .missing => []
  | .mk t u ss => visited f (.block (.mk t u ss)) (Stmt.walks f ss)

def Stmt.walk (f : Node → Bool) : Stmt → List Node
  | .missing => []
  | .block b => b.walk f
  | .expr t e => visited f (.stmt (.expr t e)) (e.walk f)
  | .ret t e => visited f (.stmt (.ret t e)) (e.walk f)
  | .throw t e => visited f (.stmt (.throw t e)) (e.walk f)
  | .cond t c y n => visited f (.stmt (.cond t c y n)) (c.walk f ++ y.walk f ++ n.walk f)
  | .varDecl t x k ds => visited f (.stmt (.varDecl t x k ds)) (Declarator.walks f ds)
  | .funcDecl t x n ps r b =>
    visited f (.stmt (.funcDecl t x n ps r b)) (identNodes n ++ Param.walks f ps ++ b.walk f)
  | .classDecl t x n e ms =>
    visited f (.stmt (.classDecl t x n e ms)) (identNodes n ++ e.walk f ++ Member.walks f ms)
  | .importDecl t s d ns m =>
    visited f (.stmt (.importDecl t s d ns m))
      (identNodes s ++ identNodes d ++ specifierNodes ns)
  | .exportDecl t ns => visited f (.stmt (.exportDecl t ns)) (specifierNodes ns)

def Stmt.walks (f : Node → Bool) : List Stmt → List Node
  | [] => []
  | s :: ss => s.walk f ++ Stmt.walks f ss

def Declarator.walk (f : Node → Bool) : Declarator → List Node
  | .mk t n ty e => visited f (.declarator (.mk t n ty e)) (identNodes n ++ e.walk f)

def Declarator.walks (f : Node → Bool) : List Declarator → List Node
  | [] => []
  | d :: ds => d.walk f ++ Declarator.walks f ds

def Member.walk (f : Node → Bool) : Member → List Node
  | .ctor t ps b => visited f (.member (.ctor t ps b)) (Param.walks f ps ++ b.walk f)
  | .method t s n ps b =>
    visited f (.member (.method t s n ps b)) (identNodes n ++ Param.walks f ps ++ b.walk f)
  | .field t s n ty e => visited f (.member (.field t s n ty e)) (identNodes n ++ e.walk f)

def Member.walks (f : Node → Bool) : List Member → List Node
  | [] => []
  | m :: ms => m.walk f ++ Member.walks f ms

end

namespace Node

def walk (f : Node → Bool) : Node → List Node
  | .file x => visited f (.file x) (Stmt.walks f x.stmts)
  | .block b => b.walk f
  | .stmt s => s.walk f
  | .declarator d => d.walk f
  | .member m => m.walk f
  | .expr e => e.walk f
  | .property p => p.walk f
  | .param p => p.walk f
  | .type .missing => []
  | .type t => visited f (.type t) []

def nodes (n : Node) : List Node :=
  n.walk fun _ => true

def ident? : Node → Option Ident
  | .expr (.ident id) => some id
  | _ => none

def idents (n : Node) : List Ident :=
  n.nodes.filterMap ident?

def kind : Node → String
  | .file _ => "SourceFile"
  | .block _ => "BlockStatement"
  | .stmt s =>
    match s with
    | .missing => ""
    | .block _ => "BlockStatement"
    | .expr .. => "ExpressionStatement"
    | .ret .. => "ReturnStatement"
    | .throw .. => "ThrowStatement"
    | .cond .. => "IfStatement"
    | .varDecl .. => "VariableStatement"
    | .funcDecl .. => "FunctionDeclaration"
    | .classDecl .. => "ClassDeclaration"
    | .importDecl .. => "ImportDeclaration"
    | .exportDecl .. => "ExportDeclaration"
  | .declarator _ => "VariableDeclaration"
  | .member m =>
    match m with
    | .ctor .. => "ConstructorDeclaration"
    | .method .. => "MethodDeclaration"
    | .field .. => "PropertyDeclaration"
  | .expr e =>
    match e with
    | .missing => ""
    | .ident _ => "Identifier"
    | .number .. => "NumericLiteral"
    | .string .. => "StringLiteral"
    | .bool .. => "BooleanLiteral"
    | .this _ => "ThisExpression"
    | .super _ => "SuperExpression"
    | .prop .. => "PropertyAccessExpression"
    | .elem .. => "ElementAccessExpression"
    | .call .. => "CallExpression"
    | .new .. => "NewExpression"
    | .binary .. => "BinaryExpression"
    | .unary .. => "PrefixUnaryExpression"
    | .cond .. => "ConditionalExpression"
    | .paren .. => "ParenthesizedExpression"
    | .void .. => "VoidExpression"
    | .spread .. => "SpreadElement"
    | .array .. => "ArrayLiteral"
    | .object .. => "ObjectLiteral"
    | .arrow .. => "ArrowFunction"
    | .func .. => "FunctionExpression"
  | .property p =>
    match p with
    | .assign .. => "PropertyAssignment"
    | .shorthand .. => "ShorthandPropertyAssignment"
    | .spread .. => "SpreadAssignment"
  | .param _ => "Parameter"
  | .type _ => "TypeReference"

/-- A file has no token of its own. -/
def token : Node → Token
  | .file _ => {}
  | .block b => b.token
  | .stmt s => s.token
  | .declarator d => d.token
  | .member m => m.token
  | .expr e => e.token
  | .property p => p.token
  | .param p => p.token
  | .type t => t.token

/-- A file shows its first statement, which has to be there. -/
def hasLexeme : Node → Bool
  | .file x => x.stmts.head?.all fun s => !s.isMissing
  | _ => true

/-- The text of a node's token; a file shows that of its first statement. -/
def lexeme : Node → String
  | .file x => x.stmts.head?.elim "" (·.token.lexeme)
  | n => n.token.lexeme

end Node

end ExtensionLowering
