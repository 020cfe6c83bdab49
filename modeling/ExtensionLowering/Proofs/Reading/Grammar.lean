import ExtensionLowering.Proofs.Reading.Lexeme
import ExtensionLowering.Tree.Basic
/-!
# The expression grammar

`Derives c xs t` says that the lexemes `xs` are an expression of the syntactic category `c` with the
tree `t`. The rules are those of the language for expressions without blocks, classes, object
literals and templates, and without type arguments; a tree shows each pair of parentheses as a node
of its own. Nothing here depends on how trees are printed.

## Main definitions

* `includes`: the categories whose expressions belong to a wider one.
* `operations`: the binary operators, with the categories of their operands.
* `Derives`, `Elements`: the rules.
-/
namespace ExtensionLowering.Grammar

/-- The syntactic categories of expressions. An element stands in an array or an argument list. -/
inductive Category where
  | expression
  | element
  | assignment
  | conditional
  | shortCircuit
  | coalesce
  | logicalOr
  | logicalAnd
  | bitOr
  | bitXor
  | bitAnd
  | equality
  | relational
  | shift
  | additive
  | multiplicative
  | exponent
  | unary
  | update
  | leftHandSide
  | call
  | new
  | member
  | primary
  deriving Repr, DecidableEq

open Category

/-- A category and one that it includes. -/
def includes : List (Category × Category) :=
  [(expression, assignment), (element, assignment), (assignment, conditional),
    (conditional, shortCircuit), (shortCircuit, logicalOr), (shortCircuit, coalesce),
    (logicalOr, logicalAnd), (logicalAnd, bitOr), (bitOr, bitXor), (bitXor, bitAnd),
    (bitAnd, equality), (equality, relational), (relational, shift), (shift, additive),
    (additive, multiplicative), (multiplicative, exponent), (exponent, unary), (unary, update),
    (update, leftHandSide), (leftHandSide, new), (leftHandSide, call), (new, member),
    (member, primary)]

/-- Binary operators between operands of two categories. -/
structure Operation where
  result : Category
  left : Category
  ops : List String
  right : Category

def operations : List Operation :=
  [⟨expression, expression, [","], assignment⟩,
    ⟨assignment, leftHandSide, ["=", "+=", "-=", "*=", "/=", "%=", "**=", "<<=", ">>=", ">>>=",
      "&=", "|=", "^=", "&&=", "||=", "??="], assignment⟩,
    ⟨coalesce, coalesce, ["??"], bitOr⟩,
    ⟨coalesce, bitOr, ["??"], bitOr⟩,
    ⟨logicalOr, logicalOr, ["||"], logicalAnd⟩,
    ⟨logicalAnd, logicalAnd, ["&&"], bitOr⟩,
    ⟨bitOr, bitOr, ["|"], bitXor⟩,
    ⟨bitXor, bitXor, ["^"], bitAnd⟩,
    ⟨bitAnd, bitAnd, ["&"], equality⟩,
    ⟨equality, equality, ["==", "!=", "===", "!=="], relational⟩,
    ⟨relational, relational, ["<", ">", "<=", ">=", "instanceof", "in"], shift⟩,
    ⟨shift, shift, ["<<", ">>", ">>>"], additive⟩,
    ⟨additive, additive, ["+", "-"], multiplicative⟩,
    ⟨multiplicative, multiplicative, ["*", "/", "%"], exponent⟩,
    ⟨exponent, update, ["**"], exponent⟩]

/-- The words that are no names. -/
def reserved : List String :=
  ["await", "break", "case", "catch", "class", "const", "continue", "debugger", "default", "delete",
    "do", "else", "enum", "export", "extends", "false", "finally", "for", "function", "if",
    "import", "in", "instanceof", "new", "null", "return", "super", "switch", "this", "throw",
    "true", "try", "typeof", "var", "void", "while", "with", "yield"]

/-- The lexeme of an operator: some operators are words. -/
def Lexeme.ofOperator (op : String) : Lexeme :=
  if op ∈ ["in", "instanceof", "typeof", "delete"] then .word op else .punct op

/-- Names with commas between them. -/
def nameList : List String → List Lexeme
  | [] => []
  | s :: ss => .word s :: ss.flatMap fun s => [.punct ",", .word s]

def nameParam (s : String) : Param :=
  .mk {} (some { name := s }) .missing false false .missing

mutual

/-- The lexemes are an expression of the category, with the tree. -/
inductive Derives : Category → List Lexeme → Expr → Prop
  | wider {c d : Category} {a : List Lexeme} {t : Expr} (hc : (c, d) ∈ includes)
      (ha : Derives d a t) : Derives c a t
  | name {s : String} (hs : s ∉ reserved) : Derives primary [.word s] (.ident { name := s })
  | this : Derives primary [.word "this"] (.this {})
  | bool (b : Bool) : Derives primary [.word (if b then "true" else "false")] (.bool {} b)
  | number (s : String) : Derives primary [.number s] (.number {} s)
  | string (v : String) : Derives primary [.string v] (.string {} v)
  | array {a : List Lexeme} {es : List Expr} (ha : Elements a es) :
      Derives primary (.punct "[" :: a ++ [.punct "]"]) (.array {} es)
  | paren {a : List Lexeme} {t : Expr} (ha : Derives expression a t) :
      Derives primary (.punct "(" :: a ++ [.punct ")"]) (.paren {} t)
  | access {c : Category} {a : List Lexeme} {t : Expr} {s : String} (hc : c ∈ [member, call])
      (ha : Derives c a t) :
      Derives c (a ++ [.punct ".", .word s]) (.prop {} {} t (some { name := s }) false)
  | optional {c : Category} {a : List Lexeme} {t : Expr} {s : String} (hc : c ∈ [member, call])
      (ha : Derives c a t) :
      Derives call (a ++ [.punct "?.", .word s]) (.prop {} {} t (some { name := s }) true)
  | index {c : Category} {a b : List Lexeme} {t u : Expr} (hc : c ∈ [member, call])
      (ha : Derives c a t) (hb : Derives expression b u) :
      Derives c (a ++ (.punct "[" :: b ++ [.punct "]"])) (.elem {} {} t u)
  | call {c : Category} {a b : List Lexeme} {t : Expr} {es : List Expr} (hc : c ∈ [member, call])
      (ha : Derives c a t) (hb : Elements b es) :
      Derives call (a ++ (.punct "(" :: b ++ [.punct ")"])) (.call {} {} t [] es)
  | new {a b : List Lexeme} {t : Expr} {es : List Expr} (ha : Derives member a t)
      (hb : Elements b es) :
      Derives member (.word "new" :: a ++ (.punct "(" :: b ++ [.punct ")"])) (.new {} t [] es)
  | newBare {a : List Lexeme} {t : Expr} (ha : Derives new a t) :
      Derives new (.word "new" :: a) (.new {} t [] [])
  | update {a : List Lexeme} {t : Expr} {op : String} (hop : op ∈ ["++", "--"])
      (ha : Derives unary a t) : Derives update (.ofOperator op :: a) (.unary {} op t)
  | unary {a : List Lexeme} {t : Expr} {op : String}
      (hop : op ∈ ["!", "-", "+", "~", "typeof", "delete"]) (ha : Derives unary a t) :
      Derives unary (.ofOperator op :: a) (.unary {} op t)
  | void {a : List Lexeme} {t : Expr} (ha : Derives unary a t) :
      Derives unary (.word "void" :: a) (.void {} t)
  | binary {o : Operation} {op : String} {a b : List Lexeme} {t u : Expr} (ho : o ∈ operations)
      (hop : op ∈ o.ops) (ha : Derives o.left a t) (hb : Derives o.right b u) :
      Derives o.result (a ++ .ofOperator op :: b) (.binary {} {} t op u)
  | cond {a b d : List Lexeme} {t u v : Expr} (ha : Derives shortCircuit a t)
      (hb : Derives assignment b u) (hd : Derives assignment d v) :
      Derives conditional (a ++ .punct "?" :: (b ++ .punct ":" :: d)) (.cond {} t u v)
  | arrow {ss : List String} {a : List Lexeme} {t : Expr} (hss : ∀ s ∈ ss, s ∉ reserved)
      (ha : Derives assignment a t) :
      Derives assignment (.punct "(" :: (nameList ss ++ .punct ")" :: .punct "=>" :: a))
        (.arrow {} (ss.map nameParam) .missing t)
  | arrowBare {s : String} {a : List Lexeme} {t : Expr} (hs : s ∉ reserved)
      (ha : Derives assignment a t) :
      Derives assignment (.word s :: .punct "=>" :: a) (.arrow {} [nameParam s] .missing t)
  | spread {a : List Lexeme} {t : Expr} (ha : Derives assignment a t) :
      Derives element (.punct "..." :: a) (.spread {} t)

/-- The lexemes are elements with commas between them, and perhaps one behind the last. -/
inductive Elements : List Lexeme → List Expr → Prop
  | nil : Elements [] []
  | one {a : List Lexeme} {t : Expr} (ha : Derives element a t) : Elements a [t]
  | cons {a b : List Lexeme} {t : Expr} {ts : List Expr} (ha : Derives element a t)
      (hb : Elements b ts) : Elements (a ++ .punct "," :: b) (t :: ts)

end

/-- The text is read as an expression with the tree. -/
def Reads (A : Alphabet) (s : String) (t : Expr) : Prop :=
  ∃ xs, Lexes A s.toList xs ∧ Derives expression xs t

end ExtensionLowering.Grammar
