import ExtensionLowering.Tree.Precedence
import ExtensionLowering.Text.Quoted
/-!
# Printed trees

`Node.render` writes a tree as source text, with four spaces of indentation a level and only the
parentheses that the binding levels ask for. A missing expression or statement shows as a mark of
its own. `Node.isComplete` says that no part that has to be written is missing; `Node.print?` is the
text of a complete tree.
-/
namespace ExtensionLowering

/-- What is written for a missing expression or statement. -/
def missingText : String := "<???>"

def indentation (depth : Nat) : String :=
  String.join (List.replicate depth "    ")

def parenthesized (s : String) : String :=
  "(" ++ s ++ ")"

def Expr.fit (least : Nat) (e : Expr) (text : String) : String :=
  if e.level < least then parenthesized text else text

def Expr.asTarget (e : Expr) (text : String) : String :=
  if e.isWrappedTarget then parenthesized text else e.fit Level.call text

def nameText (id : Option Ident) : String :=
  id.elim "" (·.name)

def commaSeparated (texts : List String) : String :=
  ", ".intercalate texts

def angled (texts : List String) : String :=
  if texts.isEmpty then "" else "<" ++ commaSeparated texts ++ ">"

mutual

def TypeRef.render : TypeRef → String
  | .missing => ""
  | .named _ name args => name ++ angled (TypeRef.renders args)

def TypeRef.renders : List TypeRef → List String
  | [] => []
  | t :: ts => t.render :: TypeRef.renders ts

end

def annotationText (t : TypeRef) : String :=
  if t.isMissing then "" else ": " ++ t.render

def specifiersText (specs : List Specifier) : String :=
  "\x7b " ++ commaSeparated (specs.map fun s =>
    nameText s.name ++ s.newName.elim "" fun a => " as " ++ a.name) ++ " \x7d"

/-- What stands between `import` and the module: the names bound, and `from` if there are any. -/
def importClause (space default : Option Ident) (named : List Specifier) : String :=
  let parts := (default.toList.map (·.name)) ++ (space.toList.map ("* as " ++ ·.name)) ++
    (if named.isEmpty then [] else [specifiersText named])
  if parts.isEmpty then "" else commaSeparated parts ++ " from "

def exportText (exported : Bool) : String :=
  if exported then "export " else ""

def staticText (static : Bool) : String :=
  if static then "static " else ""

def lineText (depth : Nat) (text : String) : String :=
  indentation depth ++ text ++ "\n"

def bracesText (depth : Nat) (lines : List String) : String :=
  if lines.isEmpty then "\x7b\x7d"
  else "\x7b\n" ++ String.join lines ++ indentation depth ++ "\x7d"

def objectText (members : List String) : String :=
  if members.isEmpty then "\x7b\x7d" else "\x7b " ++ commaSeparated members ++ " \x7d"

def initText (e : Expr) (text : String) : String :=
  if e.isMissing then "" else " = " ++ e.fit Level.assignment text

/-- The concise result of an arrow function. An object literal would be read as a block. -/
def resultText (e : Expr) (text : String) : String :=
  match e with
  | .object .. => parenthesized text
  | e => e.fit Level.assignment text

/-- What separates a unary operator from its operand: a space between two equal operators. -/
def unaryGap (op : String) : Expr → String
  | .unary _ inner _ => if inner = op then " " else ""
  | _ => ""

mutual

/-- The text of an expression without outer parentheses, inside `depth` levels of braces. -/
def Expr.render (depth : Nat) : Expr → String
  | .missing => missingText
  | .ident id => id.name
  | .number _ text => text
  | .string _ value => Text.quote value
  | .bool _ value => if value then "true" else "false"
  | .this _ => "this"
  | .super _ => "super"
  | .prop _ _ o name optional =>
    o.asTarget (o.render depth) ++ (if optional then "?." else ".") ++ nameText name
  | .elem _ _ o x => o.asTarget (o.render depth) ++ "[" ++ x.render depth ++ "]"
  | .call _ _ c ts as =>
    c.asTarget (c.render depth) ++ angled (TypeRef.renders ts) ++
      parenthesized (commaSeparated (Expr.renders depth as))
  | .new _ c ts as =>
    "new " ++ c.asTarget (c.render depth) ++ angled (TypeRef.renders ts) ++
      parenthesized (commaSeparated (Expr.renders depth as))
  | .binary _ _ l op r =>
    let level := Level.ofOperator op
    let (leftLevel, rightLevel) :=
      if isRightAssoc op then (level + 1, level) else (level, level + 1)
    l.fit leftLevel (l.render depth) ++ (if op = "," then ", " else " " ++ op ++ " ") ++
      r.fit rightLevel (r.render depth)
  | .unary _ op e =>
    op ++ unaryGap op e ++ e.fit Level.unary (e.render depth)
  | .cond _ c t e =>
    c.fit (Level.conditional + 1) (c.render depth) ++ " ? " ++
      t.fit Level.assignment (t.render depth) ++ " : " ++ e.fit Level.assignment (e.render depth)
  | .paren _ e => parenthesized (e.render depth)
  | .void _ e => "void " ++ e.fit Level.unary (e.render depth)
  | .spread _ e => "..." ++ e.fit Level.assignment (e.render depth)
  | .array _ es => "[" ++ commaSeparated (Expr.renders depth es) ++ "]"
  | .object _ ps => objectText (Property.renders depth ps)
  | .arrow _ ps b e =>
    parenthesized (commaSeparated (Param.renders depth ps)) ++ " => " ++
      if b.isMissing then resultText e (e.render depth) else b.render depth
  | .func _ name ps b =>
    "function" ++ name.elim "" (" " ++ ·.name) ++
      parenthesized (commaSeparated (Param.renders depth ps)) ++ " " ++ b.render depth

def Expr.renders (depth : Nat) : List Expr → List String
  | [] => []
  | e :: es => e.fit Level.spread (e.render depth) :: Expr.renders depth es

def Property.render (depth : Nat) : Property → String
  | .assign _ k v => k.render depth ++ ": " ++ v.fit Level.assignment (v.render depth)
  | .shorthand _ name => nameText name
  | .spread _ e => "..." ++ e.fit Level.assignment (e.render depth)

def Property.renders (depth : Nat) : List Property → List String
  | [] => []
  | p :: ps => p.render depth :: Property.renders depth ps

def Param.render (depth : Nat) : Param → String
  | .mk _ name type optional rest init =>
    (if rest then "..." else "") ++ nameText name ++ (if optional then "?" else "") ++
      annotationText type ++ initText init (init.render depth)

def Param.renders (depth : Nat) : List Param → List String
  | [] => []
  | p :: ps => p.render depth :: Param.renders depth ps

def Block.render (depth : Nat) : Block → String
  | .missing => ""
  | .mk _ _ ss => bracesText depth (Stmt.renders (depth + 1) ss)

def Stmt.render (depth : Nat) : Stmt → String
  | .missing => missingText
  | .block b => b.render depth
  | .expr _ e =>
    (if e.startsAmbiguously then parenthesized (e.render depth) else e.render depth) ++ ";"
  | .ret _ e => "return" ++ (if e.isMissing then "" else " " ++ e.render depth) ++ ";"
  | .throw _ e => "throw " ++ e.render depth ++ ";"
  | .cond _ c y n =>
    "if (" ++ c.render depth ++ ") " ++ y.render depth ++
      if n.isMissing then "" else " else " ++ n.render depth
  | .varDecl _ exported kind ds =>
    exportText exported ++ kind.keyword ++ " " ++ commaSeparated (Declarator.renders depth ds) ++ ";"
  | .funcDecl _ exported name ps result b =>
    exportText exported ++ "function " ++ nameText name ++
      parenthesized (commaSeparated (Param.renders depth ps)) ++ annotationText result ++ " " ++
      b.render depth
  | .classDecl _ exported name base ms =>
    exportText exported ++ "class " ++ nameText name ++
      (if base.isMissing then "" else " extends " ++ base.fit Level.call (base.render depth)) ++ " " ++
      bracesText depth (Member.renders (depth + 1) ms)
  | .importDecl _ space default named module =>
    "import " ++ importClause space default named ++ module.elim "" Text.quote ++ ";"
  | .exportDecl _ named => "export " ++ specifiersText named ++ ";"

def Stmt.renders (depth : Nat) : List Stmt → List String
  | [] => []
  | s :: ss => lineText depth (s.render depth) :: Stmt.renders depth ss

def Declarator.render (depth : Nat) : Declarator → String
  | .mk _ name type init => nameText name ++ annotationText type ++ initText init (init.render depth)

def Declarator.renders (depth : Nat) : List Declarator → List String
  | [] => []
  | d :: ds => d.render depth :: Declarator.renders depth ds

def Member.render (depth : Nat) : Member → String
  | .ctor _ ps b =>
    "constructor" ++ parenthesized (commaSeparated (Param.renders depth ps)) ++ " " ++ b.render depth
  | .method _ static name ps b =>
    staticText static ++ nameText name ++ parenthesized (commaSeparated (Param.renders depth ps)) ++
      " " ++ b.render depth
  | .field _ static name type init =>
    staticText static ++ nameText name ++ annotationText type ++ initText init (init.render depth) ++ ";"

def Member.renders (depth : Nat) : List Member → List String
  | [] => []
  | m :: ms => lineText depth (m.render depth) :: Member.renders depth ms

end

end ExtensionLowering
