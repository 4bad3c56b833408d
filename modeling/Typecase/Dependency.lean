import Typecase.Source.Basic
import Typecase.LabelMap
import Typecase.Graph.Components
set_option autoImplicit false

/-!
# Dependencies of recursive groups

The functions of a recursive group are sorted into strongly connected components: each
component refers only to itself and to components before it.  A function is generalized
with its component, so later components can use it at different types.

The analysis walks through the bodies of a group and keeps a table of the names in
scope.  A name stands for a function of the group or for something local that hides it.
Whenever a name is bound, what it stood for before is put on a stack, and taken back
from there when the scope ends.
-/

namespace Typecase.Dependency

open Source

/-- A function of a recursive group: its name, and the parameters and body of each of
its clauses. -/
structure Binding where
  name : String
  clauses : List (List Source.Pattern × Expr)
  deriving Repr, Inhabited

/-- What a name in scope stands for. -/
inductive Meaning where
  /-- A function of the group. -/
  | member (number : Nat)
  /-- Something else. -/
  | hidden
  deriving DecidableEq, Repr, Inhabited

/-- The state of an analysis. -/
structure Analysis where
  scopes : LabelMap Meaning
  /-- What names stood for before they were bound again, latest first. -/
  stash : List (String × Option Meaning)
  /-- Edges lead from a function to the functions that refer to it. -/
  graph : Graph
  /-- The function whose clauses are being analyzed. -/
  current : Nat
  deriving Repr, Inhabited

namespace Analysis

/-- Note that the current member mentions a name. -/
def reference (name : String) (a : Analysis) : Analysis :=
  match LabelMap.find? a.scopes name with
  | some (.member n) => { a with graph := a.graph.addEdge n a.current }
  | _ => a

/-- Hide `name` behind something local. -/
def bind (a : Analysis) (name : String) : Analysis :=
  { a with
    stash := (name, LabelMap.find? a.scopes name) :: a.stash
    scopes := LabelMap.set a.scopes name .hidden }

/-- Bind names one after the other. -/
def bindAll (names : List String) (a : Analysis) : Analysis := names.foldl bind a

/-- Take back the latest bound name. -/
def unbind (a : Analysis) : Analysis :=
  match a.stash with
  | [] => a
  | (name, some meaning) :: rest =>
    { a with stash := rest, scopes := LabelMap.set a.scopes name meaning }
  | (name, none) :: rest =>
    { a with stash := rest, scopes := LabelMap.erase a.scopes name }

/-- Take back the latest `n` bound names. -/
def unbindAll : Nat → Analysis → Analysis
  | 0, a => a
  | n + 1, a => unbindAll n a.unbind

end Analysis

/-- All names of a pattern.  Constructors are not told apart from variables: hiding one
that is not in the table changes nothing. -/
def namesOf (p : Source.Pattern) : List String := p.names fun _ => false

mutual

/-- Go through an expression. -/
def analyzeExpr : Expr → Analysis → Analysis
  | .literal _ _, a => a
  | .var _ x, a => a.reference x
  | .app _ f e, a => analyzeExpr e (analyzeExpr f a)
  | .fn _ rs, a => analyzeRules rs a
  | .case _ e rs, a => analyzeRules rs (analyzeExpr e a)
  | .letIn _ ds e, a =>
    let (bound, a) := analyzeDecls ds a
    (analyzeExpr e a).unbindAll bound
  | .tuple _ es, a => analyzeExprs es a
  | .record _ fs, a => analyzeFields fs a
  | .selector _ _, a => a
  | .list _ es, a => analyzeExprs es a
  | .seq _ es, a => analyzeExprs es a
  | .cond _ c x y, a => analyzeExpr y (analyzeExpr x (analyzeExpr c a))
  | .andalso _ x y, a => analyzeExpr y (analyzeExpr x a)
  | .orelse _ x y, a => analyzeExpr y (analyzeExpr x a)
  | .raise _ e, a => analyzeExpr e a
  | .handle _ e rs, a => analyzeRules rs (analyzeExpr e a)
  | .annot _ e _, a => analyzeExpr e a

/-- Analyze expressions in order. -/
def analyzeExprs : List Expr → Analysis → Analysis
  | [], a => a
  | e :: es, a => analyzeExprs es (analyzeExpr e a)

/-- Analyze labelled expressions in order. -/
def analyzeFields : List (String × Expr) → Analysis → Analysis
  | [], a => a
  | (_, e) :: fs, a => analyzeFields fs (analyzeExpr e a)

def analyzeRules : List Rule → Analysis → Analysis
  | [], a => a
  | ⟨_, p, none, e⟩ :: rs, a =>
    let names := namesOf p
    analyzeRules rs ((analyzeExpr e (a.bindAll names)).unbindAll names.length)
  | ⟨_, p, some g, e⟩ :: rs, a =>
    let names := namesOf p
    analyzeRules rs
      ((analyzeExpr e (analyzeExpr g (a.bindAll names))).unbindAll names.length)

/-- Analyze a declaration.  The names that it binds stay in scope; their number is
returned. -/
def analyzeDecl : Decl → Analysis → Nat × Analysis
  | .val _ true p e, a =>
    let names := namesOf p
    (names.length, analyzeExpr e (a.bindAll names))
  | .val _ false p e, a =>
    let names := namesOf p
    (names.length, (analyzeExpr e a).bindAll names)
  | .functions _ bs, a =>
    let names := bs.map (·.name)
    (names.length, analyzeBindings bs (a.bindAll names))
  | .datatypes _ bs, a =>
    let names := bs.flatMap fun b => b.constructors.map (·.name)
    (names.length, a.bindAll names)
  | .abbreviation _ _ _ _, a => (0, a)
  | .exceptions _ bs, a =>
    let names := bs.map (·.name)
    (names.length, a.bindAll names)
  | .localIn _ ds body, a =>
    let (n, a) := analyzeDecls ds a
    let (m, a) := analyzeDecls body a
    (n + m, a)

/-- Analyze declarations in order. -/
def analyzeDecls : List Decl → Analysis → Nat × Analysis
  | [], a => (0, a)
  | d :: ds, a =>
    let (n, a) := analyzeDecl d a
    let (m, a) := analyzeDecls ds a
    (n + m, a)

/-- Analyze the functions of a nested declaration. -/
def analyzeBindings : List FunBinding → Analysis → Analysis
  | [], a => a
  | ⟨_, _, cs⟩ :: bs, a => analyzeBindings bs (analyzeClauses cs a)

def analyzeClauses : List FunClause → Analysis → Analysis
  | [], a => a
  | ⟨_, params, _, e⟩ :: cs, a =>
    let names := params.flatMap namesOf
    analyzeClauses cs ((analyzeExpr e (a.bindAll names)).unbindAll names.length)

end

/-- Go through a clause of a function. -/
def analyzeClause (a : Analysis) (clause : List Source.Pattern × Expr) : Analysis :=
  let names := clause.1.flatMap namesOf
  (analyzeExpr clause.2 (a.bindAll names)).unbindAll names.length

/-- The state before the first clause: only the functions of the group are in scope. -/
def start (bindings : List Binding) : Analysis where
  scopes := LabelMap.ofList (bindings.zipIdx.map fun e => (e.1.name, .member e.2))
  stash := []
  graph := .empty bindings.length
  current := 0

/-- Analyze the functions of a group that is in scope, one after the other. -/
def analyzeMembers (bindings : List Binding) (a : Analysis) : Analysis :=
  bindings.zipIdx.foldl (fun a e => e.1.clauses.foldl analyzeClause { a with current := e.2 }) a

/-- Analyze a recursive group. -/
def analyze (bindings : List Binding) : Analysis := analyzeMembers bindings (start bindings)

/-- The strongly connected components of a recursive group, those that others depend on
first.  Within a component the functions are in order of declaration. -/
def components (bindings : List Binding) : List (List Nat) :=
  (analyze bindings).graph.sortedComponents

/-- Forget an earlier group: every name is taken out of scope. -/
def Analysis.reset (a : Analysis) : Analysis where
  scopes := a.scopes.foldl (fun scopes e => LabelMap.erase scopes e.1) a.scopes
  stash := []
  graph := .empty 0
  current := 0

/-- The components of a recursive group, found by an analysis that may have served before, and the
state in which this leaves the analysis. -/
def Analysis.components (bindings : List Binding) (a : Analysis) : List (List Nat) × Analysis :=
  let names := bindings.zipIdx.map fun e => (e.1.name, Meaning.member e.2)
  let a := analyzeMembers bindings
    { a.reset with
      scopes := LabelMap.extend a.reset.scopes names
      graph := .empty bindings.length }
  (a.graph.sortedComponents, a)

end Typecase.Dependency
