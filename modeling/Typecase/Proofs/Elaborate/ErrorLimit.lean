import Typecase.Proofs.Elaborate.Generalization
import Typecase.Proofs.Elaborate.Stepwise
import Typecase.Proofs.Elaborate.Registry
import Typecase.Proofs.Elaborate.Steps
set_option autoImplicit false

/-!
# The limit of errors

The limit of errors is looked at between the declarations of a program and nowhere else.  So a
program under a limit comes to what the shortest part at its beginning comes to that has so many
errors without any limit.
-/

namespace Typecase

/-- The settings with another limit of errors. -/
def Config.limited (cfg : Config) (limit : Nat) : Config := { cfg with maxErrors := limit }

namespace Elaborate

open Source

variable {α : Type} {cfg : Config} {limit : Nat} {p : Progress} {s : State}

/-! ## Declarations -/

/-- `m` does the same under every limit. -/
def Unlimited (m : ElaborateM α) : Prop := ∀ cfg limit, m (cfg.limited limit) = m cfg

theorem Unlimited.bind {β : Type} {m : ElaborateM α} {k : α → ElaborateM β} (hm : Unlimited m)
    (hk : ∀ a, Possible m a → Unlimited (k a)) : Unlimited (m >>= k) := by
  intro cfg limit
  funext s
  rw [bind_run, bind_run, hm cfg limit]
  rcases hrun : m cfg s with ⟨r, s₁⟩
  cases r with
  | error e => rfl
  | ok a => exact congrFun (hk a ⟨cfg, s, s₁, hrun⟩ cfg limit) s₁

/-- No step of elaboration looks at the limit. -/
theorem pervasive_unlimited : Pervasive (fun _ => True) fun _ m => Unlimited m where
  pure := fun _ _ _ => rfl
  fail := fun _ _ _ _ _ => rfl
  crash := fun _ _ => rfl
  chain := Unlimited.bind
  inherited := inherited_true
  missing := fun _ _ _ _ _ => rfl
  liftStore := fun _ _ _ => rfl
  getStore := fun _ _ => rfl
  read := by
    intro β k hk hlimit cfg limit
    show k (cfg.limited limit) (cfg.limited limit) = k cfg cfg
    rw [hk (cfg.limited limit) cfg limit]
    exact congrFun (hlimit cfg limit) cfg
  trace := fun _ _ _ _ => rfl
  report := fun _ _ _ _ _ _ => rfl
  typeVariable := by
    intro pos name cfg limit
    funext s
    rw [typeVariable_run, typeVariable_run]
  countDatatype := by
    intro β k hk cfg limit
    funext s
    exact congrFun (hk s.datatypes cfg limit) _
  freshParam := fun _ _ => rfl
  countException := by
    intro β k hk cfg limit
    funext s
    exact congrFun (hk (s.exceptions + 1) cfg limit) _
  withinValue := by
    intro α m level hm cfg limit
    funext s
    show (fun r : Except Stop α × State => (r.1, r.2.leaveValue))
      (m (cfg.limited limit) (s.enterValue level)) = _
    rw [hm cfg limit]
    rfl

/-! ## Programs -/

/-- The shortest part at the beginning of a program that has at least `limit` errors by the count
`errors`; the whole program if there is none. -/
def shortest (errors : Program → Nat) (limit : Nat) (program : Program) : Program :=
  (program.inits.find? fun part => decide (limit ≤ errors part)).getD program

theorem shortest_nil (errors : Program → Nat) : shortest errors limit [] = [] := by
  unfold shortest
  by_cases h : limit ≤ errors [] <;> simp [h]

theorem shortest_of_le {errors : Program → Nat} (h : limit ≤ errors []) (program : Program) :
    shortest errors limit program = [] := by
  unfold shortest
  cases program <;> simp [h]

theorem shortest_cons {errors : Program → Nat} (h : ¬ limit ≤ errors []) (d : Decl) (ds : Program) :
    shortest errors limit (d :: ds) = d :: shortest (fun part => errors (d :: part)) limit ds := by
  have hcons : (fun part => decide (limit ≤ errors (d :: part))) =
      (fun part => decide (limit ≤ errors part)) ∘ List.cons d := rfl
  unfold shortest
  rw [hcons, List.inits_cons, List.find?_cons, decide_eq_false h, List.find?_map]
  cases List.find? ((fun part => decide (limit ≤ errors part)) ∘ List.cons d) ds.inits <;> rfl

theorem isStopped_limited (hlimit : 0 < limit) (s : State) :
    s.isStopped (cfg.limited limit) = (s.crashed || decide (limit ≤ s.errorCount)) := by
  show (s.crashed || decide (0 < limit) && decide (limit ≤ s.errorCount)) = _
  rw [decide_eq_true hlimit, Bool.true_and]

/-- Below the limit, a declaration is elaborated as if there were none. -/
theorem step_limited (hlimit : 0 < limit) (hbelow : ¬ limit ≤ s.errorCount) (d : Decl) :
    step (cfg.limited limit) p d s = step (cfg.limited 0) p d s := by
  have hsame : elaborateDecl p.env 0 d (cfg.limited limit) =
      elaborateDecl p.env 0 d (cfg.limited 0) :=
    pervasive_unlimited.elaborateDecl trivial 0 d (cfg.limited 0) limit
  rw [step_run, step_run, isStopped_limited hlimit, isStopped_unlimited rfl, decide_eq_false hbelow,
    Bool.or_false, hsame]

/-- At the limit, nothing happens any more. -/
theorem steps_stopped (hlimit : 0 < limit) (hreached : limit ≤ s.errorCount) (ds : Program) :
    steps (cfg.limited limit) p ds s = (p, s) := by
  induction ds with
  | nil => rfl
  | cons d ds ih =>
    have hstep : step (cfg.limited limit) p d s = (p, s) := by
      rw [step_run, isStopped_limited hlimit, decide_eq_true hreached, Bool.or_true]
      rfl
    rw [steps_cons, hstep]
    exact ih

/-- The declarations of a program under a limit are those up to the limit, without any. -/
theorem steps_limited (hlimit : 0 < limit) (ds : Program) :
    steps (cfg.limited limit) p ds s = steps (cfg.limited 0) p
      (shortest (fun part => (steps (cfg.limited 0) p part s).2.errorCount) limit ds) s := by
  induction ds generalizing p s with
  | nil =>
    rw [shortest_nil]
    rfl
  | cons d ds ih =>
    by_cases hreached : limit ≤ s.errorCount
    · rw [steps_stopped hlimit hreached, shortest_of_le hreached]
      rfl
    · rw [steps_cons, step_limited hlimit hreached, ih, shortest_cons hreached]
      rfl

/-- How many errors a program has if there is no limit. -/
def errorsWithoutLimit (cfg : Config) (env : Env) (s : State) (program : Program) : Nat :=
  (Diagnostic.errors (elaborateProgram (cfg.limited 0) program env s).1.diagnostics).length

theorem errorsWithoutLimit_eq (cfg : Config) (env : Env) (s : State) :
    errorsWithoutLimit cfg env s = fun program =>
      (steps (cfg.limited 0) { env := env.scope } program s.reset).2.errorCount := by
  funext program
  exact ((sort_perm _).filter _).length_eq

/-- A program under a limit of errors comes to what the shortest part of it that has so many errors
comes to without a limit: the same typed declarations, bindings, environment and diagnostics, and
the same state. -/
theorem elaborateProgram_limited (cfg : Config) (program : Program) (env : Env) (s : State)
    (limit : Nat) (hlimit : 0 < limit) :
    elaborateProgram (cfg.limited limit) program env s = elaborateProgram (cfg.limited 0)
      (shortest (errorsWithoutLimit cfg env s) limit program) env s := by
  have hsteps : program.foldlM (step (cfg.limited limit)) { env := env.scope } s.reset =
      (shortest (errorsWithoutLimit cfg env s) limit program).foldlM (step (cfg.limited 0))
        { env := env.scope } s.reset := by
    rw [errorsWithoutLimit_eq]
    exact steps_limited hlimit program
  have hrun : ∀ cfg program, elaborateProgram cfg program env s =
      (fun r : Progress × State =>
        let diagnostics := Diagnostic.sort r.2.diagnostics
        let errors := r.2.errorCount
        (Outcome.mk r.1.decls r.1.bindings r.1.env diagnostics,
          (record .info "elaborated program" [("decls", .number r.1.decls.length),
            ("errors", .number errors), ("warnings", .number (diagnostics.length - errors))] r.2).2))
        (program.foldlM (step cfg) { env := env.scope } s.reset) := fun _ _ => rfl
  rw [hrun, hrun, hsteps]

/-- `val f = fn 1 => 2 val y = missing val z = f` -/
def partialThenMissing : Program :=
  let p := Pos.none
  let one : Source.Pattern := .literal p ⟨.int, "1"⟩
  [.val p false (.var p "f") (.fn p [⟨p, one, none, .literal p ⟨.int, "2"⟩⟩]),
    .val p false (.var p "y") (.var p "missing"), .val p false (.var p "z") (.var p "f")]

/-- The first error belongs to a declaration that succeeds. -/
theorem elaborateProgram_limited_two :
    let cfg : Config := { nonExhaustive := .error }
    let env := (Env.initial {}).1
    let part := shortest (errorsWithoutLimit cfg env preludeState) 2 partialThenMissing
    0 < 2 ∧ part.length = 2 ∧
      elaborateProgram (cfg.limited 2) partialThenMissing env preludeState =
        elaborateProgram (cfg.limited 0) part env preludeState := by
  refine ⟨by decide, ?_, elaborateProgram_limited _ _ _ _ 2 (by decide)⟩
  rw [errorsWithoutLimit_eq]
  decide +kernel

end Elaborate

end Typecase
