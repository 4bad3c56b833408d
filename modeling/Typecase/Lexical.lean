set_option autoImplicit false

/-!
# Positions and literals

What the leaves of program trees carry.  A literal constant is kept as the text that stands for
it, without its quotes.
-/

namespace Typecase

/-- A position in a source text.  Nodes that were not read from a text are at `0:0`. -/
structure Pos where
  line : Int
  col : Int
  deriving DecidableEq, Repr, Inhabited

namespace Pos

/-- The position of nodes that were not read from a text. -/
def none : Pos := ⟨0, 0⟩

/-- A position as text: `3:14`. -/
def render (p : Pos) : String := toString p.line ++ ":" ++ toString p.col

end Pos

/-- Kinds of literal constants. -/
inductive LiteralKind where
  /-- An integer: `10`. -/
  | int
  /-- A real number: `1.5`. -/
  | real
  /-- A string: `"hello"`. -/
  | string
  /-- A character: `#"c"`. -/
  | char
  deriving DecidableEq, Repr, Inhabited

namespace LiteralKind

def name : LiteralKind → String
  | .int => "int"
  | .real => "real"
  | .string => "string"
  | .char => "char"

end LiteralKind

/-- A literal, with its text in the source. -/
structure Literal where
  kind : LiteralKind
  text : String
  deriving DecidableEq, Repr, Inhabited

namespace Literal

/-- The literal as it is written in a program. -/
def render (l : Literal) : String :=
  match l.kind with
  | .string => "\"" ++ l.text ++ "\""
  | .char => "#\"" ++ l.text ++ "\""
  | .int | .real => l.text

end Literal

end Typecase
