import Typecase.Config
import Typecase.Elaborate.Problem
import Typecase.Prelude
import Typecase.Types.Instance
import Typecase.Types.Transaction
import Typecase.Typed
set_option autoImplicit false

/-!
# The state of elaboration

Elaboration works on a store of type variables, collects diagnostics and log records, and
stops at the first error of a declaration.  What was done up to an error is kept.

Elaboration may also break down: where the match compiler does, and where a copy of a type is made
that is missing.  This is no error of a program, and the whole run ends with it.

Explicit type variables belong to the outermost value declaration that mentions them, and
live one level inside it, so nothing nested in that declaration quantifies them.
-/

namespace Typecase.Elaborate

/-- What elaboration keeps from one step to the next. -/
structure State where
  store : Store := {}
  diagnostics : List Diagnostic := []
  /-- The log, oldest first. -/
  records : List Log.Record := []
  typeVars : LabelMap Var := []
  /-- The level at which explicit type variables are allocated. -/
  typeVarLevel : Int := 1
  valueDepth : Nat := 0
  /-- How many names of parameters were made up. -/
  params : Nat := 0
  exceptions : Nat := 0
  /-- How many datatypes were declared, the prelude's included. -/
  datatypes : Nat := Prelude.datatypeCount
  /-- Whether elaboration broke down. -/
  crashed : Bool := false
  deriving Repr, Inhabited

/-- Computations that cannot fail. -/
abbrev StateOnly := StateM State

/-- Why a computation stops. -/
inductive Stop where
  /-- There is an error in the program. -/
  | failed (d : Diagnostic)
  /-- Elaboration breaks down. -/
  | crashed
  deriving DecidableEq, Repr, Inhabited

/-- Computations that may stop. -/
abbrev ElaborateM := ReaderT Config (ExceptT Stop StateOnly)

/-! ## The log and the diagnostics -/

/-- Add an entry to the log. -/
def record (level : Log.Level) (message : String) (values : List (String × Log.Value)) :
    StateOnly Unit :=
  modify fun s => { s with
    records := s.records ++ [⟨level, message, ("component", .text "elab") :: values⟩] }

/-- Add a debugging entry to the log. -/
def trace (message : String) (values : List (String × Log.Value)) : ElaborateM Unit :=
  fun _ => ExceptT.lift (record .debug message values)

/-- Collect a diagnostic. -/
def report (d : Diagnostic) : StateOnly Unit := do
  modify fun s => { s with diagnostics := s.diagnostics ++ [d] }
  record .debug "diagnostic" [("kind", .text d.kind.name), ("severity", .text d.severity.word),
    ("pos", .text d.pos.render)]

/-- How many errors were reported. -/
def State.errorCount (s : State) : Nat := (Diagnostic.errors s.diagnostics).length

/-- Whether nothing is elaborated any more: elaboration broke down, or the limit of errors is
reached. -/
def State.isStopped (cfg : Config) (s : State) : Bool :=
  s.crashed || 0 < cfg.maxErrors && cfg.maxErrors ≤ s.errorCount

/-- Stop with an error at `pos`. -/
def fail {α : Type} (pos : Pos) (p : Problem) : ElaborateM α :=
  throw (.failed (p.diagnostic .error pos))

/-- Break down. -/
def crash {α : Type} : ElaborateM α := throw .crashed

/-! ## The store -/

/-- Do something to the store. -/
def inStore {α : Type} (act : StoreM α) : StateOnly α := fun s =>
  let (a, store) := act s.store
  (a, { s with store })

/-- Do something to the store. -/
def liftStore {α : Type} (act : StoreM α) : ElaborateM α := fun _ => ExceptT.lift (inStore act)

/-- The present store. -/
def getStore : ElaborateM Store := return (← get).store

/-- A new type variable at the given level. -/
def freshType (level : Int) : ElaborateM Ty := liftStore (Ty.fresh level)

/-- Break down unless `p` holds of the store. -/
def ensure (p : Store → Bool) : ElaborateM Unit := do
  unless p (← getStore) do crash

/-- An instance of a scheme. -/
def instantiate (level : Int) (σ : Scheme) : ElaborateM Ty := do
  ensure fun s => σ.isMono || s.isWhole σ.type
  liftStore (Store.instantiate level σ)

/-- Make two types equal, or stop with an error at `pos`. -/
def unify (pos : Pos) (expected found : Ty) : ElaborateM Unit := do
  match ← liftStore (Store.unify expected found).run with
  | .ok () => return ()
  | .error e => fail pos (.ofUnifyError (← getStore) e false)

/-- Quantify a type at `level`.  If that is to be checked, no variable may be quantified
that is free in the environment. -/
def generalize (env : Env) (pos : Pos) (level : Int) (t : Ty) : ElaborateM Scheme := do
  let before ← getStore
  let free := if (← read).checkGeneralization then env.freeIds before else []
  let σ ← liftStore (Store.generalize level t)
  let s ← getStore
  match s.escape? free σ with
  | some e => fail pos (.escape (e.message s))
  | none => return σ

/-- The scheme of a variable bound by a declaration.  Only the type of a syntactic value is
quantified; other types are kept back, so that only later uses determine them. -/
def bindScheme (env : Env) (pos : Pos) (level : Int) (t : Ty) (isValue : Bool) :
    ElaborateM Scheme := do
  if isValue then generalize env pos level t
  else
    liftStore (modify fun s => s.restrict level t)
    return .mono t

/-! ## Names and scopes -/

/-- Enter a value declaration whose bindings are quantified at `level`. -/
def State.enterValue (level : Int) (s : State) : State :=
  if s.valueDepth = 0 then
    { s with typeVars := [], typeVarLevel := level + 1, valueDepth := 1 }
  else { s with valueDepth := s.valueDepth + 1 }

/-- Leave a value declaration. -/
def State.leaveValue (s : State) : State := { s with valueDepth := s.valueDepth - 1 }

/-- Elaborate a value declaration; it is left whether this succeeds or not. -/
def withinValue {α : Type} (level : Int) (act : ElaborateM α) : ElaborateM α := fun cfg s =>
  let (r, s) := act cfg (s.enterValue level)
  (r, s.leaveValue)

/-- A name for a parameter that no program can use. -/
def freshParam : ElaborateM String := do
  let n := (← get).params
  modify fun s => { s with params := n + 1 }
  return "$" ++ toString n

/-- Log the bindings of a declaration. -/
def traceBindings (bindings : List Binding) : ElaborateM Unit :=
  bindings.forM fun b => do
    let s ← getStore
    trace "bound" [("name", .text b.name), ("scheme", .text (s.showScheme b.scheme)),
      ("generic", .number b.scheme.bound.length)]

end Typecase.Elaborate
