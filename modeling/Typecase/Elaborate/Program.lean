import Typecase.Elaborate.Expr
set_option autoImplicit false

/-!
# Elaborating programs

A program is elaborated declaration by declaration.  A declaration that fails is reported,
and the names it would have bound get the most general type, so that later declarations
are still checked.  Elaboration goes on until the limit of errors is reached.
-/

namespace Typecase.Elaborate

open Source

/-- Why there is no outcome. -/
inductive Refusal where
  | emptyProgram
  | emptyExpression
  /-- Elaboration broke down. -/
  | crashed
  deriving DecidableEq, Repr, Inhabited

/-- The wording of a refusal. -/
def Refusal.message : Refusal → String
  | .emptyProgram => "Empty program"
  | .emptyExpression => "Empty expression"
  | .crashed => "runtime error"

/-! ## Declarations that fail -/

mutual

/-- The names of values that a declaration binds. -/
def declNames (env : Env) : Decl → List String
  | .val _ _ p _ => p.names env.isConstructor
  | .functions _ bs => bs.map (·.name)
  | .datatypes _ bs => bs.flatMap fun b => b.constructors.map (·.name)
  | .abbreviation _ _ _ _ => []
  | .exceptions _ bs => bs.map (·.name)
  | .localIn _ _ body => declsNames env body

/-- The names of values that several declarations bind. -/
def declsNames (env : Env) : List Decl → List String
  | [] => []
  | d :: ds => declNames env d ++ declsNames env ds

end

/-- Bind names to the most general type. -/
def poison (env : Env) : List String → StateOnly Env
  | [] => return env
  | name :: names => do
    let t ← inStore (Ty.fresh 1)
    let σ ← inStore (Store.generalize 0 t)
    poison (env.bind name σ) names

/-! ## Programs -/

/-- Forget what belongs to the program before.  Variables, exceptions, datatypes and the log
are kept, and a run that broke down stays so. -/
def State.reset (s : State) : State :=
  { s with
    store := s.store.reset, diagnostics := [], typeVars := [], typeVarLevel := 1
    valueDepth := 0, params := 0 }

/-- The end of a run that breaks down. -/
def State.crash (s : State) : State := { s with crashed := true }

/-- What a program has come to so far. -/
structure Progress where
  decls : List Typed.Decl := []
  bindings : List Binding := []
  env : Env
  deriving Repr, Inhabited

/-- Elaborate the next declaration of a program, unless the run has ended. -/
def step (cfg : Config) (p : Progress) (d : Decl) : StateOnly Progress := do
  if (← get).isStopped cfg then return p
  let next ← match ← (elaborateDecl p.env 0 d cfg).run with
    | .ok made =>
      pure ⟨p.decls ++ made.decl.toList, p.bindings ++ made.bindings, made.env⟩
    | .error (.failed e) =>
      report e
      pure { p with env := ← poison p.env (declNames p.env d) }
    | .error .crashed =>
      modify State.crash
      pure p
  inStore (modify Store.compress)
  return next

/-- What a program has come to. -/
structure Outcome where
  decls : List Typed.Decl
  bindings : List Binding
  /-- The environment after the program. -/
  env : Env
  diagnostics : List Diagnostic
  deriving Repr, Inhabited

/-- The given environment, or a prelude if there is none. -/
def startEnv (env : Option Env) : StateOnly Env :=
  match env with
  | some env => return env
  | none => inStore Env.initial

/-- Elaborate a program in an environment. -/
def elaborateProgram (cfg : Config) (program : Program) (env : Env) : StateOnly Outcome := do
  modify State.reset
  let p ← program.foldlM (step cfg) { env := env.scope }
  let diagnostics := Diagnostic.sort (← get).diagnostics
  let errors := (← get).errorCount
  record .info "elaborated program" [("decls", .number p.decls.length), ("errors", .number errors),
    ("warnings", .number (diagnostics.length - errors))]
  return ⟨p.decls, p.bindings, p.env, diagnostics⟩

/-- Elaborate a program in an environment, or in the prelude if there is none. -/
def elaborate (cfg : Config) (program : Option Program) (env : Option Env) :
    StateOnly (Except Refusal Outcome) := do
  match program with
  | none => return .error .emptyProgram
  | some program =>
    let outcome ← elaborateProgram cfg program (← startEnv env)
    return if (← get).crashed then .error .crashed else .ok outcome

/-- An expression after elaboration: its typed form and its type scheme, unless it failed. -/
structure ExprOutcome where
  result : Option (Typed.Expr × Scheme)
  diagnostics : List Diagnostic
  deriving Repr, Inhabited

/-- Elaborate an expression and quantify its type. -/
def elaborateSingle (cfg : Config) (e : Expr) (env : Env) : StateOnly ExprOutcome := do
  modify fun s => { s.reset with valueDepth := 1 }
  match ← (elaborateExpr env 1 e cfg).run with
  | .error (.failed d) =>
    report d
    return ⟨none, Diagnostic.sort (← get).diagnostics⟩
  | .error .crashed =>
    modify State.crash
    return ⟨none, Diagnostic.sort (← get).diagnostics⟩
  | .ok typed =>
    inStore (modify Store.compress)
    let σ ← if isValue env e then inStore (Store.generalize 0 typed.type)
      else do
        inStore (modify fun s => s.restrict 0 typed.type)
        pure (.mono typed.type)
    return ⟨some (typed, σ), Diagnostic.sort (← get).diagnostics⟩

/-- Elaborate an expression in an environment, or in the prelude if there is none. -/
def elaborateExpression (cfg : Config) (e : Option Expr) (env : Option Env) :
    StateOnly (Except Refusal ExprOutcome) := do
  match e with
  | none => return .error .emptyExpression
  | some e =>
    let outcome ← elaborateSingle cfg e (← startEnv env)
    return if (← get).crashed then .error .crashed else .ok outcome

end Typecase.Elaborate
