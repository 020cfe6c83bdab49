import ExtensionLowering.Tree.Basic
/-!
# Binding levels

How tightly the shapes of expressions bind. A printed operand is put into parentheses exactly when
its level is below the one its place asks for.
-/
namespace ExtensionLowering

namespace Level

def comma : Nat := 0
def spread : Nat := 1
def assignment : Nat := 2
def conditional : Nat := 3
def unary : Nat := 16
def call : Nat := 18
def primary : Nat := 20

/-- The level of a binary operator. Unknown operators bind like comparisons for equality. -/
def ofOperator : String → Nat
  | "," => comma
  | "=" | "+=" | "-=" => assignment
  | "??" => 4
  | "||" => 5
  | "&&" => 6
  | "|" => 7
  | "^" => 8
  | "&" => 9
  | "==" | "!=" | "===" | "!==" => 10
  | "<" | ">" | "<=" | ">=" | "instanceof" | "in" => 11
  | "<<" | ">>" | ">>>" => 12
  | "+" | "-" => 13
  | "*" | "/" | "%" => 14
  | "**" => 15
  | _ => 10

end Level

/-- The operators that group to the right. -/
def isRightAssoc : String → Bool
  | "**" | "=" | "+=" | "-=" => true
  | _ => false

namespace Expr

def level : Expr → Nat
  | .binary _ _ _ op _ => Level.ofOperator op
  | .cond .. => Level.conditional
  | .arrow .. => Level.assignment
  | .spread .. => Level.spread
  | .unary .. | .void .. => Level.unary
  | .call .. | .new .. | .prop .. | .elem .. => Level.call
  | _ => Level.primary

/-- Whether the expression needs parentheses as a callee or as the object of a member access,
whatever its level. -/
def isWrappedTarget : Expr → Bool
  | .func .. | .number .. | .object .. => true
  | _ => false

/-- Whether a statement that begins with the expression would begin with a brace or with the word
`function`. -/
def startsAmbiguously : Expr → Bool
  | .object .. | .func .. => true
  | .binary _ _ l _ _ => l.startsAmbiguously
  | .call _ _ c _ _ => !c.isWrappedTarget && c.startsAmbiguously
  | .prop _ _ o _ _ => !o.isWrappedTarget && o.startsAmbiguously
  | .elem _ _ o _ => !o.isWrappedTarget && o.startsAmbiguously
  | .cond _ c _ _ => c.startsAmbiguously
  | _ => false

end Expr

end ExtensionLowering
