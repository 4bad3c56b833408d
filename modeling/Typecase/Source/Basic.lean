import Typecase.Lexical
set_option autoImplicit false

/-!
# Source programs

The trees of programs as they are written: type expressions, patterns, expressions and
declarations.  Names are not resolved, so a variable may stand for a constructor.  Every
node knows the position where it starts.
-/

namespace Typecase

namespace Source

/-- A type expression. -/
inductive TypeExpr where
  /-- A type variable, with its quote: `'a`. -/
  | var (pos : Pos) (name : String)
  /-- An applied type constructor: `int`, `'a list`. -/
  | con (pos : Pos) (name : String) (args : List TypeExpr)
  | arrow (pos : Pos) (arg result : TypeExpr)
  | tuple (pos : Pos) (elems : List TypeExpr)
  | record (pos : Pos) (fields : List (String × TypeExpr))
  deriving Repr, Inhabited

/-- A pattern. -/
inductive Pattern where
  /-- `_` -/
  | wildcard (pos : Pos)
  /-- A variable, or a constructor without a value. -/
  | var (pos : Pos) (name : String)
  /-- A constant. -/
  | literal (pos : Pos) (lit : Literal)
  /-- A constructor: `SOME x`, `x :: xs`, `nil`. -/
  | con (pos : Pos) (name : String) (arg : Option Pattern)
  /-- `(a, b)` -/
  | tuple (pos : Pos) (elems : List Pattern)
  /-- `{x, y = p}`, or `{x, y = p, ...}` if flexible. -/
  | record (pos : Pos) (fields : List (String × Pattern)) (flexible : Bool)
  /-- `x as p` -/
  | layered (pos : Pos) (name : String) (pattern : Pattern)
  /-- `[a, b]` -/
  | list (pos : Pos) (elems : List Pattern)
  /-- `p : t` -/
  | annot (pos : Pos) (pattern : Pattern) (type : TypeExpr)
  deriving Repr, Inhabited

/-- A constructor of a datatype or an exception, with the type of the value that it
carries. -/
structure ConBinding where
  pos : Pos
  name : String
  arg : Option TypeExpr
  deriving Repr, Inhabited

/-- One datatype of a declaration. -/
structure DatatypeBinding where
  pos : Pos
  params : List String
  name : String
  constructors : List ConBinding
  deriving Repr, Inhabited

mutual

/-- Expressions. -/
inductive Expr where
  /-- A constant. -/
  | literal (pos : Pos) (lit : Literal)
  /-- A variable or constructor. -/
  | var (pos : Pos) (name : String)
  /-- `f x` -/
  | app (pos : Pos) (func arg : Expr)
  /-- `fn p1 => e1 | p2 => e2` -/
  | fn (pos : Pos) (rules : List Rule)
  /-- `case e of p1 => e1 | p2 => e2` -/
  | case (pos : Pos) (scrutinee : Expr) (rules : List Rule)
  /-- `let d1; d2 in e end` -/
  | letIn (pos : Pos) (decls : List Decl) (body : Expr)
  /-- `(a, b)` -/
  | tuple (pos : Pos) (elems : List Expr)
  /-- `{x = 1, y = true}` -/
  | record (pos : Pos) (fields : List (String × Expr))
  /-- `#x` -/
  | selector (pos : Pos) (label : String)
  /-- `[a, b]` -/
  | list (pos : Pos) (elems : List Expr)
  /-- `(a; b)` -/
  | seq (pos : Pos) (exprs : List Expr)
  /-- `if c then a else b` -/
  | cond (pos : Pos) (test whenTrue whenFalse : Expr)
  /-- `a andalso b` -/
  | andalso (pos : Pos) (left right : Expr)
  /-- `a orelse b` -/
  | orelse (pos : Pos) (left right : Expr)
  /-- `raise e` -/
  | raise (pos : Pos) (expr : Expr)
  /-- `e handle p1 => e1 | p2 => e2` -/
  | handle (pos : Pos) (expr : Expr) (rules : List Rule)
  /-- `e : t` -/
  | annot (pos : Pos) (expr : Expr) (type : TypeExpr)
  deriving Repr, Inhabited

/-- A rule of an expression with clauses: `p if guard => body`. -/
structure Rule where
  pos : Pos
  pattern : Pattern
  guard : Option Expr
  body : Expr
  deriving Repr, Inhabited

/-- Declarations. -/
inductive Decl where
  /-- `val p = e`, or `val rec f = e`. -/
  | val (pos : Pos) (recursive : Bool) (pattern : Pattern) (expr : Expr)
  /-- `fun f p1 = e1 | f p2 = e2 and g …` -/
  | functions (pos : Pos) (bindings : List FunBinding)
  /-- `datatype 'a t = A | B of 'a and …` -/
  | datatypes (pos : Pos) (bindings : List DatatypeBinding)
  /-- `type 'a t = body` -/
  | abbreviation (pos : Pos) (params : List String) (name : String) (type : TypeExpr)
  /-- `exception A and B of t` -/
  | exceptions (pos : Pos) (bindings : List ConBinding)
  /-- `local d1 in d2 end` -/
  | localIn (pos : Pos) (decls body : List Decl)
  deriving Repr, Inhabited

/-- One function of a function declaration. -/
structure FunBinding where
  pos : Pos
  name : String
  clauses : List FunClause
  deriving Repr, Inhabited

/-- A clause of a function: its curried parameters, the annotation of its result, and
its body. -/
structure FunClause where
  pos : Pos
  params : List Pattern
  result : Option TypeExpr
  body : Expr
  deriving Repr, Inhabited

end

/-- A program is a list of declarations; each sees those before it. -/
abbrev Program := List Decl

namespace TypeExpr

/-- Where a type expression starts. -/
def pos : TypeExpr → Pos
  | .var p _ | .con p _ _ | .arrow p _ _ | .tuple p _ | .record p _ => p

def formName : TypeExpr → String
  | .var .. => "Var"
  | .con .. => "Con"
  | .arrow .. => "Arrow"
  | .tuple .. => "Tuple"
  | .record .. => "Record"

end TypeExpr

namespace Pattern

/-- Where a pattern starts. -/
def pos : Pattern → Pos
  | .wildcard p | .var p _ | .literal p _ | .con p _ _ | .tuple p _ | .record p _ _
  | .layered p _ _ | .list p _ | .annot p _ _ => p

def formName : Pattern → String
  | .wildcard _ => "Wildcard"
  | .var .. => "Var"
  | .literal .. => "Literal"
  | .con .. => "Con"
  | .tuple .. => "Tuple"
  | .record .. => "Record"
  | .layered .. => "As"
  | .list .. => "List"
  | .annot .. => "Constraint"

mutual

/-- The names that a pattern binds, in order of appearance, without those for which
`isCon` holds: they stand for constructors. -/
def names (isCon : String → Bool) : Pattern → List String
  | .wildcard _ => []
  | .var _ x => if isCon x then [] else [x]
  | .literal _ _ => []
  | .con _ _ none => []
  | .con _ _ (some p) => names isCon p
  | .tuple _ ps => namesList isCon ps
  | .record _ fs _ => namesFields isCon fs
  | .layered _ x p => x :: names isCon p
  | .list _ ps => namesList isCon ps
  | .annot _ p _ => names isCon p

def namesList (isCon : String → Bool) : List Pattern → List String
  | [] => []
  | p :: ps => names isCon p ++ namesList isCon ps

def namesFields (isCon : String → Bool) : List (String × Pattern) → List String
  | [] => []
  | (_, p) :: fs => names isCon p ++ namesFields isCon fs

end

end Pattern

namespace Expr

/-- Where an expression starts. -/
def pos : Expr → Pos
  | .literal p _ | .var p _ | .app p _ _ | .fn p _ | .case p _ _ | .letIn p _ _ | .tuple p _
  | .record p _ | .selector p _ | .list p _ | .seq p _ | .cond p _ _ _ | .andalso p _ _
  | .orelse p _ _ | .raise p _ | .handle p _ _ | .annot p _ _ => p

/-- Name of the outermost form of an expression. -/
def formName : Expr → String
  | .literal .. => "Literal"
  | .var .. => "Var"
  | .app .. => "App"
  | .fn .. => "Fn"
  | .case .. => "Case"
  | .letIn .. => "Let"
  | .tuple .. => "Tuple"
  | .record .. => "Record"
  | .selector .. => "Selector"
  | .list .. => "List"
  | .seq .. => "Seq"
  | .cond .. => "If"
  | .andalso .. => "Andalso"
  | .orelse .. => "Orelse"
  | .raise .. => "Raise"
  | .handle .. => "Handle"
  | .annot .. => "Constraint"

/-- Whether an expression is an application. -/
def isApp : Expr → Bool
  | .app .. => true
  | _ => false

end Expr

namespace Decl

/-- Where a declaration starts. -/
def pos : Decl → Pos
  | .val p _ _ _ | .functions p _ | .datatypes p _ | .abbreviation p _ _ _ | .exceptions p _
  | .localIn p _ _ => p

def formName : Decl → String
  | .val .. => "Val"
  | .functions .. => "Fun"
  | .datatypes .. => "Datatype"
  | .abbreviation .. => "TypeAlias"
  | .exceptions .. => "Exception"
  | .localIn .. => "Local"

end Decl

/-! ## Trees that are not read from a text -/

namespace Expr

/-- A curried application. -/
def apply (f : Expr) (args : List Expr) : Expr := args.foldl (.app .none) f

/-- An operator applied to the pair of its operands. -/
def operator (op : String) (a b : Expr) : Expr := .app .none (.var .none op) (.tuple .none [a, b])

end Expr

namespace Pattern

/-- A list pattern with at least one element. -/
def cons (head tail : Pattern) : Pattern := .con .none "::" (some (.tuple .none [head, tail]))

end Pattern

end Source

end Typecase
