import Typecase.Match.Compile
import Typecase.Lexical
import Typecase.Types.Datatype
set_option autoImplicit false

/-!
# Typed programs

The trees that elaboration produces.  Every expression and pattern carries its type,
every name of a constructor is resolved, and everything with clauses carries a compiled
match.  Functions have a single parameter without a pattern; conditionals, lists and
the other derived forms are expanded.
-/

namespace Typecase

/-- What every node of a typed tree carries. -/
structure Note where
  pos : Pos
  type : Ty
  deriving DecidableEq, Repr, Inhabited

/-- A name with the type scheme that it is bound to. -/
structure Binding where
  name : String
  scheme : Scheme
  deriving DecidableEq, Repr, Inhabited

namespace Typed

mutual

/-- A typed expression. -/
inductive Expr where
  /-- A variable, or a constructor. -/
  | var (note : Note) (name : String) (con : Option Con)
  /-- A constant. -/
  | literal (note : Note) (lit : Literal)
  /-- An application. -/
  | app (note : Note) (func arg : Expr)
  /-- A function of one parameter. -/
  | fn (note : Note) (param : String) (body : Expr)
  | case (note : Note) (scrutinee : Expr) (rules : List Rule) (decision : Match.Result)
  /-- Declarations around an expression. -/
  | letIn (note : Note) (decls : List Decl) (body : Expr)
  | tuple (note : Note) (elems : List Expr)
  | record (note : Note) (fields : List (String × Expr))
  /-- The function that selects a field. -/
  | selector (note : Note) (label : String)
  /-- Expressions that are evaluated in order; the last gives the value. -/
  | seq (note : Note) (exprs : List Expr)
  | raise (note : Note) (expr : Expr)
  /-- An expression with handlers; what they do not match is raised again. -/
  | handle (note : Note) (expr : Expr) (rules : List Rule) (decision : Match.Result)
  deriving Repr, Inhabited

/-- A rule of an expression with clauses. -/
structure Rule where
  pattern : Pattern Note
  guard : Option Expr
  body : Expr
  deriving Repr, Inhabited

/-- A typed declaration. -/
inductive Decl where
  | val (pos : Pos) (pattern : Pattern Note) (expr : Expr) (decision : Match.Result)
      (bindings : List Binding)
  /-- A group of functions that may call each other. -/
  | functions (pos : Pos) (bindings : List FunBinding)
  | datatypes (pos : Pos) (datatypes : List Datatype)
  | exceptions (pos : Pos) (constructors : List (Con × Scheme))
  /-- Declarations of which only the second list is visible afterwards. -/
  | localIn (pos : Pos) (decls body : List Decl)
  deriving Repr, Inhabited

/-- A function of a recursive group. -/
structure FunBinding where
  name : String
  scheme : Scheme
  fn : Expr
  deriving Repr, Inhabited

end

namespace Expr

/-- The position and the type of an expression. -/
def note : Expr → Note
  | .var n _ _ | .literal n _ | .app n _ _ | .fn n _ _ | .case n _ _ _ | .letIn n _ _
  | .tuple n _ | .record n _ | .selector n _ | .seq n _ | .raise n _ | .handle n _ _ _ => n

/-- Where an expression starts. -/
def pos (e : Expr) : Pos := e.note.pos

/-- The type of an expression. -/
def type (e : Expr) : Ty := e.note.type

def formName : Expr → String
  | .var .. => "Var"
  | .literal .. => "Literal"
  | .app .. => "App"
  | .fn .. => "Fn"
  | .case .. => "Case"
  | .letIn .. => "Let"
  | .tuple .. => "Tuple"
  | .record .. => "Record"
  | .selector .. => "Selector"
  | .seq .. => "Seq"
  | .raise .. => "Raise"
  | .handle .. => "Handle"

end Expr

namespace Decl

/-- Where a declaration starts. -/
def pos : Decl → Pos
  | .val p _ _ _ _ | .functions p _ | .datatypes p _ | .exceptions p _ | .localIn p _ _ => p

def formName : Decl → String
  | .val .. => "Val"
  | .functions .. => "Fun"
  | .datatypes .. => "Datatype"
  | .exceptions .. => "Exception"
  | .localIn .. => "Local"

end Decl

end Typed

namespace Pattern

/-- The position of a pattern. -/
def pos (p : Pattern Note) : Pos := (p.note?.map Note.pos).getD .none

/-- The type of a pattern. -/
def type (p : Pattern Note) : Ty := (p.note?.map Note.type).getD .lost

end Pattern

end Typecase
