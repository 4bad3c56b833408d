import Typecase.Elaborate.Program
set_option autoImplicit false

/-!
# The steps of a program

What one declaration makes of a program, and what all of them make of it, as equations on the
state.
-/

namespace Typecase.Elaborate

open Source

variable {cfg : Config}

/-- The state with a compressed store. -/
def State.compress (s : State) : State := { s with store := s.store.compress }

/-- Without a limit of errors only a breakdown ends a run. -/
theorem isStopped_unlimited (hlimit : cfg.maxErrors = 0) (s : State) :
    s.isStopped cfg = s.crashed := by
  unfold State.isStopped
  rw [hlimit]
  exact Bool.or_false _

/-- One declaration.  If it fails, it is reported, and the names that it would bind get the most
general type.  If elaboration breaks down, the program comes to nothing more. -/
theorem step_run (p : Progress) (d : Decl) (s : State) :
    step cfg p d s = if s.isStopped cfg then (p, s) else
      match elaborateDecl p.env 0 d cfg s with
      | (.ok made, s') =>
        (⟨p.decls ++ made.decl.toList, p.bindings ++ made.bindings, made.env⟩, s'.compress)
      | (.error (.failed e), s') =>
        let r := poison p.env (declNames p.env d) (report e s').2
        ({ p with env := r.1 }, r.2.compress)
      | (.error .crashed, s') => (p, s'.crash.compress) := by
  unfold step
  show (if s.isStopped cfg then _ else _ : StateOnly Progress) s = _
  by_cases hstopped : s.isStopped cfg = true
  · rw [if_pos hstopped, if_pos hstopped]
    rfl
  · rw [if_neg hstopped, if_neg hstopped]
    rcases hrun : elaborateDecl p.env 0 d cfg s with ⟨r, s'⟩
    have hbind : ∀ k : Except Stop Elaborated → StateOnly Progress,
        ((elaborateDecl p.env 0 d cfg).run >>= k) s = k r s' := by
      intro k
      show k (elaborateDecl p.env 0 d cfg s).1 (elaborateDecl p.env 0 d cfg s).2 = k r s'
      rw [hrun]
    rw [hbind]
    cases r with
    | ok made => rfl
    | error stop => cases stop <;> rfl

/-- The declarations of a program, one after the other. -/
def steps (cfg : Config) (p : Progress) (ds : Program) (s : State) : Progress × State :=
  ds.foldlM (step cfg) p s

theorem steps_cons (p : Progress) (d : Decl) (ds : Program) (s : State) :
    steps cfg p (d :: ds) s = steps cfg (step cfg p d s).1 ds (step cfg p d s).2 := rfl

theorem steps_append (p : Progress) (decls later : Program) (s : State) :
    steps cfg p (decls ++ later) s =
      steps cfg (steps cfg p decls s).1 later (steps cfg p decls s).2 := by
  induction decls generalizing p s with
  | nil => rfl
  | cons decl decls ih => exact ih _ _

theorem sort_perm (ds : List Diagnostic) : (Diagnostic.sort ds).Perm ds := List.mergeSort_perm _ _

/-- A program is reset, elaborated step by step, and logged. -/
theorem elaborateProgram_run (cfg : Config) (program : Program) (env : Env) (s : State) :
    ∃ records, elaborateProgram cfg program env s =
      let r := steps cfg { env := env.scope } program s.reset
      (⟨r.1.decls, r.1.bindings, r.1.env, Diagnostic.sort r.2.diagnostics⟩,
        { r.2 with records := r.2.records ++ records }) :=
  ⟨_, rfl⟩

end Typecase.Elaborate
