import Typecase.Elaborate.State
set_option autoImplicit false

/-!
# Compiling the clauses of a program

Matches that leave out values and clauses that are never selected are reported as the
configuration says.
-/

namespace Typecase.Elaborate

/-- Where clauses stand. -/
inductive MatchSite where
  /-- A function or a case analysis. -/
  | rules
  /-- An exception handler, which need not match everything. -/
  | handler
  /-- The pattern of a value declaration. -/
  | binding
  deriving DecidableEq, Repr, Inhabited

/-- Report that clauses leave out values, except in a handler. -/
def reportMissing (site : MatchSite) (pos : Pos) (r : Match.Result) : ElaborateM Unit := do
  if !r.exhaustive && site != .handler then
    let severity := match (← read).nonExhaustive with
      | .error => Severity.error
      | .warn => .warning
    report ((Problem.nonExhaustive (site = .binding) r.missing).diagnostic severity pos)

/-- Report the clauses that are never selected, if this is asked for. -/
def reportRedundant (patterns : List (Pattern Note)) (r : Match.Result) : ElaborateM Unit := do
  if (← read).redundant = .warn then
    r.unreachable.forM fun i =>
      report ((Problem.redundant i).diagnostic .warning (patterns.getD i .omitted).pos)

/-- Compile clauses over a type and report what is wrong with them. -/
def compileMatch (site : MatchSite) (pos : Pos) (clauses : List (Match.Clause Note))
    (scrutinee : Ty) : ElaborateM Match.Result := do
  match Match.compile (← getStore) clauses (some scrutinee) with
  | .error .outOfRange => crash
  | .error fault => fail pos (.clauses fault)
  | .ok r =>
    trace "compiled match" [("pos", .text pos.render), ("clauses", .number clauses.length),
      ("exhaustive", .truth r.exhaustive), ("unreachable", .number r.unreachable.length),
      ("decision", .text r.tree.render)]
    reportMissing site pos r
    reportRedundant (clauses.map (·.pattern)) r
    return r

/-- Compile the rules of a function, a case analysis or a handler. -/
def compileRules (site : MatchSite) (pos : Pos) (rules : List Typed.Rule) (scrutinee : Ty) :
    ElaborateM Match.Result :=
  compileMatch site pos (rules.map fun r => ⟨r.pattern, r.guard.isSome⟩) scrutinee

end Typecase.Elaborate
