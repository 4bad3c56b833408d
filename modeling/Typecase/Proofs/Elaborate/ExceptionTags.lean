import Typecase.Proofs.Elaborate.Generativity
set_option autoImplicit false

/-!
# The numbers of exceptions

The exceptions that programs introduce are numbered from one on, in the order in which they are
introduced, over all programs that share a state.  No number is given out twice.  The exceptions
of the prelude are numbered on their own, from zero on, so the first exceptions that programs
introduce share their numbers with exceptions of the prelude.
-/

namespace Typecase

namespace Elaborate

open Source

/-! ## Sessions -/

/-- The points of programs that are elaborated one after the other. -/
def sessionPoints (cfg : Config) : List Program → Env → State → List Env
  | [], _, _ => []
  | program :: programs, env, s =>
    points cfg program env s ++
      sessionPoints cfg programs (elaborateProgram cfg program env s).1.env
        (elaborateProgram cfg program env s).2

/-- All programs of a session. -/
theorem continued_session (cfg : Config) (programs : List Program) (env : Env) (s : State)
    {E : List Con} (henv : env.Knows E) :
    Continued s (introduced cfg programs env s) (session cfg programs env s).2 ∧
      ∀ env' ∈ sessionPoints cfg programs env s,
        env'.Knows (E ++ introduced cfg programs env s) := by
  induction programs generalizing env s E with
  | nil => exact ⟨⟨rfl, rfl⟩, fun _ h => absurd h List.not_mem_nil⟩
  | cons program programs ih =>
    let w : Watch := ⟨False, False, id⟩
    have hscope : env.scope.Known w ⟨[], E⟩ := ⟨fun h => h.elim, henv.scope⟩
    obtain ⟨R', -, hcontinued, hpoints, henv₁, -⟩ := declares_program cfg w program
      { env := env.scope } s.reset hscope (fun h => h.elim)
      fun _ _ => ⟨fun h => h.elim, fun h => h.elim⟩
    obtain ⟨records, hrun⟩ := elaborateProgram_run cfg program env s
    have hnext : (elaborateProgram cfg program env s).1.env.Knows
        (E ++ exceptionsAmong (eventsFrom cfg { env := env.scope } program s.reset)) := by
      rw [hrun]
      exact henv₁.exceptions
    obtain ⟨hcontinued₁, hpoints₁⟩ := ih _ (elaborateProgram cfg program env s).2 hnext
    unfold introduced sessionPoints
    have hprogram : Continued s (exceptionsAmong (eventsFrom cfg { env := env.scope } program s.reset))
        (elaborateProgram cfg program env s).2 := by
      rw [hrun]
      exact hcontinued
    refine ⟨hprogram.append hcontinued₁, ?_⟩
    rw [← List.append_assoc]
    refine List.forall_mem_append.mpr ⟨fun env' henv' => ?_, hpoints₁⟩
    exact (hpoints env' henv').exceptions.mono
      (fun _ _ hv con hcon => List.mem_append_left _ (hv con hcon)) fun _ _ ht => ht

/-! ## The prelude -/

/-- The exceptions of the prelude have the numbers from zero to three. -/
theorem prelude_exceptions : ((exceptionsOf (Env.initial {}).1).map (·.tag)).Nodup ∧
    ∀ con ∈ exceptionsOf (Env.initial {}).1, con.tag ≤ 3 :=
  prelude_entries.2.2.2

/-- In a session that starts from the prelude, the exceptions that programs introduce get the
numbers that follow the count of the initial state, one after the other, so no two of them have
the same number.  With those of the prelude, which have different numbers among themselves, they
are all exceptions in scope at any point.  An exception of the prelude has the number of an
introduced one only if that number is at most three. -/
theorem exceptions_numbered (cfg : Config) (programs : List Program) (s : State) :
    (introduced cfg programs (Env.initial {}).1 s).map (·.tag) =
        List.range' (s.exceptions + 1) (introduced cfg programs (Env.initial {}).1 s).length ∧
      ((introduced cfg programs (Env.initial {}).1 s).map (·.tag)).Nodup ∧
      ((exceptionsOf (Env.initial {}).1).map (·.tag)).Nodup ∧
      (∀ con ∈ introduced cfg programs (Env.initial {}).1 s,
        ∀ con' ∈ exceptionsOf (Env.initial {}).1, con.tag = con'.tag → con.tag ≤ 3) ∧
      ∀ env ∈ sessionPoints cfg programs (Env.initial {}).1 s, ∀ x v con,
        env.value? x = some v → v.status = .exception con →
          con ∈ exceptionsOf (Env.initial {}).1 ∨
            con ∈ introduced cfg programs (Env.initial {}).1 s := by
  obtain ⟨⟨htags, -⟩, hpoints⟩ :=
    continued_session cfg programs (Env.initial {}).1 s (knows_exceptionsOf _)
  refine ⟨htags, ?_, prelude_exceptions.1, ?_, ?_⟩
  · rw [htags]
    exact List.nodup_range'
  · intro con _ con' hcon' htag
    rw [htag]
    exact prelude_exceptions.2 con' hcon'
  · intro env henv x v con hv hcon
    exact List.mem_append.mp ((hpoints env henv).value? hv con hcon)

/-- `exception E` -/
def oneException : Program := [.exceptions .none [⟨.none, "E", none⟩]]

/-- The first exception that a program introduces shares its number with `Bind`. -/
theorem introduced_shares_number :
    ∃ con ∈ introduced {} [oneException] (Env.initial {}).1 preludeState,
      ∃ con' ∈ exceptionsOf (Env.initial {}).1,
        con.name = "E" ∧ con'.name = "Bind" ∧ con.tag = con'.tag := by
  decide +kernel

end Elaborate

end Typecase
