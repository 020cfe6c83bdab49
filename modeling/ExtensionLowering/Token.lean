/-!
# Tokens

The primary token of a node: its kind, its text and where it stands in the source. Lines and columns
count from one; a line that is not positive means that the node has no place in the source.
-/
namespace ExtensionLowering

structure Token where
  kind : String := ""
  lexeme : String := ""
  line : Int := 0
  column : Int := 0
  deriving Repr, DecidableEq, Inhabited

def Token.synthetic (lexeme : String) : Token :=
  { kind := "SYNTHETIC", lexeme }

def Token.hasPosition (t : Token) : Bool :=
  0 < t.line

@[simp] theorem Token.synthetic_hasPosition (lexeme : String) :
    (Token.synthetic lexeme).hasPosition = false := rfl

end ExtensionLowering
