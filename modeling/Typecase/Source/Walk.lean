import Typecase.Source.Basic
set_option autoImplicit false

/-!
# Walking through expressions

The parts of an expression that are themselves expressions, each before its own parts
and in the order in which they are written.  Guards and nested declarations are
included.
-/

namespace Typecase.Source

mutual

/-- An expression followed by all its parts. -/
def Expr.walk : Expr → List Expr
  | .literal p l => [.literal p l]
  | .var p x => [.var p x]
  | .app p f a => .app p f a :: (f.walk ++ a.walk)
  | .fn p rs => .fn p rs :: walkRules rs
  | .case p e rs => .case p e rs :: (e.walk ++ walkRules rs)
  | .letIn p ds e => .letIn p ds e :: (walkDecls ds ++ e.walk)
  | .tuple p es => .tuple p es :: walkExprs es
  | .record p fs => .record p fs :: walkFields fs
  | .selector p l => [.selector p l]
  | .list p es => .list p es :: walkExprs es
  | .seq p es => .seq p es :: walkExprs es
  | .cond p c a b => .cond p c a b :: (c.walk ++ a.walk ++ b.walk)
  | .andalso p a b => .andalso p a b :: (a.walk ++ b.walk)
  | .orelse p a b => .orelse p a b :: (a.walk ++ b.walk)
  | .raise p e => .raise p e :: e.walk
  | .handle p e rs => .handle p e rs :: (e.walk ++ walkRules rs)
  | .annot p e t => .annot p e t :: e.walk

def walkExprs : List Expr → List Expr
  | [] => []
  | e :: es => e.walk ++ walkExprs es

/-- The expressions of labelled expressions. -/
def walkFields : List (String × Expr) → List Expr
  | [] => []
  | (_, e) :: fs => e.walk ++ walkFields fs

/-- The guards and bodies of rules. -/
def walkRules : List Rule → List Expr
  | [] => []
  | ⟨_, _, none, e⟩ :: rs => e.walk ++ walkRules rs
  | ⟨_, _, some g, e⟩ :: rs => g.walk ++ e.walk ++ walkRules rs

/-- The expressions of a declaration. -/
def Decl.walk : Decl → List Expr
  | .val _ _ _ e => e.walk
  | .functions _ bs => walkBindings bs
  | .datatypes _ _ => []
  | .abbreviation _ _ _ _ => []
  | .exceptions _ _ => []
  | .localIn _ ds body => walkDecls ds ++ walkDecls body

/-- The expressions of declarations. -/
def walkDecls : List Decl → List Expr
  | [] => []
  | d :: ds => d.walk ++ walkDecls ds

/-- The bodies of functions. -/
def walkBindings : List FunBinding → List Expr
  | [] => []
  | ⟨_, _, cs⟩ :: bs => walkClauses cs ++ walkBindings bs

def walkClauses : List FunClause → List Expr
  | [] => []
  | ⟨_, _, _, e⟩ :: cs => e.walk ++ walkClauses cs

end

end Typecase.Source
