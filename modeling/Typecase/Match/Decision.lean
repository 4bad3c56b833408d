import Typecase.Match.Pattern
set_option autoImplicit false

/-!
# Decision trees

A decision tree tests parts of a value, the scrutinee, until it selects a clause or
finds that no clause matches.  Parts are located by paths from the root of the
scrutinee.
-/

namespace Typecase

/-- What a test looks for. -/
inductive Tag where
  /-- A constructor. -/
  | con (c : Con)
  /-- A constant. -/
  | literal (l : Literal)
  deriving DecidableEq, Repr, Inhabited

namespace Tag

/-- The tag as it is written in a pattern. -/
def render : Tag → String
  | .con c => c.name
  | .literal l => l.render

/-- Whether a value with this tag carries another value. -/
def hasArg : Tag → Bool
  | .con c => c.hasArg
  | .literal _ => false

/-- Whether two tags can stand in one test: constructors of one datatype, or literals
of one kind. -/
def compatible : Tag → Tag → Bool
  | .con c, .con d => c.datatype == d.datatype
  | .literal l, .literal k => l.kind == k.kind
  | _, _ => false

end Tag

/-- A step from a value to one of its parts. -/
inductive Step where
  | component (index : Nat)
  | field (label : String)
  /-- To the value that a constructor carries. -/
  | arg (con : Con)
  deriving DecidableEq, Repr, Inhabited

/-- The way from a value to one of its parts. -/
abbrev Path := List Step

namespace Path

/-- A path as text: `$`, `$.0`, `$.x`, `$.SOME`, … -/
def render (p : Path) : String :=
  p.foldl (fun text step => text ++ "." ++ match step with
    | .component i => toString i
    | .field l => l
    | .arg c => c.name) "$"

end Path

/-- A decision tree. -/
inductive Decision where
  | fail
  /-- Select a clause and bind names to parts of the scrutinee.  A guarded clause goes
  on with `fallback` when its guard does not hold. -/
  | leaf (clause : Nat) (bindings : List (String × Path)) (fallback : Option Decision)
  /-- Test the value at `path`.  There is no default when the cases are complete. -/
  | switch (path : Path) (cases : List (Tag × Decision)) (default : Option Decision)
  deriving Repr, Inhabited

namespace Decision

mutual

/-- A decision tree on one line: `switch $ {nil => leaf 0 | _ => fail}`. -/
def render : Decision → String
  | .fail => "fail"
  | .leaf clause _ none => "leaf " ++ toString clause
  | .leaf clause _ (some d) => "leaf " ++ toString clause ++ " if guard else " ++ render d
  | .switch path cases none =>
    "switch " ++ path.render ++ " \x7b" ++ " | ".intercalate (renderCases cases) ++ "\x7d"
  | .switch path cases (some d) =>
    "switch " ++ path.render ++ " \x7b" ++
      " | ".intercalate (renderCases cases ++ ["_ => " ++ render d]) ++ "\x7d"

/-- Casewise `render`, with the tags. -/
def renderCases : List (Tag × Decision) → List String
  | [] => []
  | (tag, d) :: cases => (tag.render ++ " => " ++ render d) :: renderCases cases

end

mutual

/-- Whether the tree can end without a clause. -/
def canFail : Decision → Bool
  | .fail => true
  | .leaf _ _ none => false
  | .leaf _ _ (some d) => canFail d
  | .switch _ cases none => canFailCases cases
  | .switch _ cases (some d) => canFailCases cases || canFail d

/-- Whether some case can fail. -/
def canFailCases : List (Tag × Decision) → Bool
  | [] => false
  | (_, d) :: cases => canFail d || canFailCases cases

end

mutual

/-- The clauses that the tree selects somewhere. -/
def clauses : Decision → List Nat
  | .fail => []
  | .leaf clause _ none => [clause]
  | .leaf clause _ (some d) => clause :: clauses d
  | .switch _ cases none => clausesCases cases
  | .switch _ cases (some d) => clausesCases cases ++ clauses d

/-- The clauses selected in some case. -/
def clausesCases : List (Tag × Decision) → List Nat
  | [] => []
  | (_, d) :: cases => clauses d ++ clausesCases cases

end

end Decision

end Typecase
