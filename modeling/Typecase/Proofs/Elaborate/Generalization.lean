import Typecase.Elaborate.Program
import Typecase.Proofs.Elaborate.Levels
import Typecase.Proofs.Elaborate.Preludes
set_option autoImplicit false

/-!
# Generalization never escapes

Programs are elaborated one after the other, each in the environment that the one before left.
It makes no difference whether every generalization is checked against the environment: no
variable is ever quantified that is free in it.

Variables are numbered in 32-bit integers.  The check compares numbers, so this is said of runs
that do not use up all numbers.
-/

namespace Typecase

namespace Elaborate

open Source

variable {α β : Type} {cfg : Config} {s s' : State} {env : Env}

/-! ## Computations that cannot fail -/

/-- From `s`, the computation `f` leads to a later state and a result with `Q`; it does the same
when generalizations are checked. -/
structure Proceeds (cfg : Config) (f : Config → StateOnly α) (s : State)
    (Q : α → State → Prop) : Prop where
  evolves : Evolves s (f (cfg.checking false) s).2
  result : Q (f (cfg.checking false) s).1 (f (cfg.checking false) s).2
  agrees : (f (cfg.checking false) s).2.store.nextId ≤ Store.capacity →
    f (cfg.checking true) s = f (cfg.checking false) s

section Proceeds

variable {f : Config → StateOnly α} {Q : α → State → Prop} {Q' : β → State → Prop}

theorem Proceeds.pure {a : α} (hs : s.Regular) (ha : Q a s) : Proceeds cfg (fun _ => pure a) s Q :=
  ⟨.refl hs, ha, fun _ => rfl⟩

theorem Proceeds.bind {k : Config → α → StateOnly β} (hf : Proceeds cfg f s Q)
    (hk : ∀ a s', Evolves s s' → Q a s' → Proceeds cfg (fun c => k c a) s' Q') :
    Proceeds cfg (fun c => f c >>= k c) s Q' := by
  have hrun : ∀ c, (f c >>= k c) s = k c (f c s).1 (f c s).2 := fun _ => rfl
  have hrest := hk _ _ hf.evolves hf.result
  refine ⟨hf.evolves.trans hrest.evolves, hrest.result, ?_⟩
  intro hcap
  rw [hrun] at hcap
  rw [hrun, hrun, hf.agrees (Nat.le_trans hrest.evolves.store.nextId_le hcap)]
  exact hrest.agrees hcap

theorem Proceeds.get {k : Config → State → StateOnly β} (h : Proceeds cfg (fun c => k c s) s Q') :
    Proceeds cfg (fun c => get >>= k c) s Q' :=
  ⟨h.evolves, h.result, h.agrees⟩

/-- A choice that does not depend on whether generalizations are checked. -/
theorem Proceeds.ite {p : Config → Bool} {f' : Config → StateOnly α}
    (hp : p (cfg.checking true) = p (cfg.checking false)) (h : Proceeds cfg f s Q)
    (h' : Proceeds cfg f' s Q) : Proceeds cfg (fun c => if p c then f c else f' c) s Q := by
  cases hcase : p (cfg.checking false) with
  | true =>
    rw [hcase] at hp
    refine ⟨?_, ?_, ?_⟩ <;> simp only [hp, hcase, if_true]
    · exact h.evolves
    · exact h.result
    · exact h.agrees
  | false =>
    rw [hcase] at hp
    refine ⟨?_, ?_, ?_⟩ <;> simp only [hp, hcase, Bool.false_eq_true, if_false]
    · exact h'.evolves
    · exact h'.result
    · exact h'.agrees

theorem Proceeds.report (hs : s.Regular) (d : Diagnostic) :
    Proceeds cfg (fun _ => report d) s fun _ _ => True :=
  ⟨evolves_of_eq hs rfl rfl rfl rfl, trivial, fun _ => rfl⟩

theorem Proceeds.foldlM {f : Config → β → α → StateOnly β} {P : β → State → Prop}
    (hf : ∀ b a s, s.Regular → P b s → Proceeds cfg (fun c => f c b a) s P) (xs : List α) (b : β)
    (hs : s.Regular) (hb : P b s) : Proceeds cfg (fun c => xs.foldlM (f c) b) s P := by
  induction xs generalizing b s with
  | nil => exact .pure hs hb
  | cons x xs ih =>
    refine .bind (hf b x s hs hb) ?_
    intro b' s' h hb'
    exact ih b' h.regular hb'

theorem Proceeds.inStore {act : StoreM α} (hs : s.Regular) (h : s.store.Advances (act s.store).2)
    (hQ : Q (act s.store).1 { s with store := (act s.store).2 }) :
    Proceeds cfg (fun _ => inStore act) s Q :=
  ⟨evolves_store hs h, hQ, fun _ => rfl⟩

/-- A computation that may stop is run to its end, whichever that is. -/
theorem Proceeds.run {m : ElaborateM α} (h : Runs cfg m s Q) :
    Proceeds cfg (fun c => (m c).run) s fun r s' => ∀ a, r = .ok a → Q a s' :=
  ⟨h.evolves, h.result, h.agrees⟩

end Proceeds

/-! ## Programs -/

theorem proceeds_poison (names : List String) (env : Env) (hs : s.Regular)
    (henv : env.Within s.store 0) :
    Proceeds cfg (fun _ => poison env names) s fun env s' => env.Within s'.store 0 := by
  induction names generalizing env s with
  | nil => exact .pure hs henv
  | cons name names ih =>
    unfold poison
    have hfresh := Store.fresh_advances hs.store 1
    refine .bind (Q := fun t s' => s'.store.Bounded t) (.inStore hs hfresh ?_) ?_
    · exact (Store.within_var.mpr (Store.withinVar_fresh (by decide) (Int.le_refl 1) s.store)).bounded
    · intro t s₁ h₁ ht
      have hquantifies := Store.generalize_quantifies h₁.regular.store ht 0
      refine .bind (Q := fun σ s' => s'.store.Within 0 σ.type) (.inStore h₁.regular
        (hquantifies.lowered.advances h₁.regular.store) hquantifies.within) ?_
      intro σ s₂ h₂ hσ
      exact ih (env.bind name σ) h₂.regular ((henv.advance (h₁.trans h₂).store).bind hσ)

theorem proceeds_step (p : Progress) (d : Decl) (hs : s.Regular) (henv : p.env.Within s.store 0) :
    Proceeds cfg (fun c => step c p d) s fun p s' => p.env.Within s'.store 0 := by
  have hcompress : ∀ (next : Progress) s₁, s₁.Regular → next.env.Within s₁.store 0 →
      Proceeds cfg (fun _ => do
        inStore (modify Store.compress)
        return next) s₁ fun p s' => p.env.Within s'.store 0 := by
    intro next s₁ hs₁ hnext
    have hadvances := Store.compress_advances hs₁.store
    refine .bind (Q := fun _ s' => next.env.Within s'.store 0)
      (.inStore hs₁ hadvances (hnext.advance hadvances)) ?_
    intro _ s₂ h₂ hnext₂
    exact .pure h₂.regular hnext₂
  unfold step
  refine .get (.ite rfl (.pure hs henv) ?_)
  refine .bind (.run (runs_elaborateDecl d hs henv)) ?_
  intro r s₁ h₁ hr
  cases r with
  | ok made =>
    exact hcompress ⟨p.decls ++ made.decl.toList, p.bindings ++ made.bindings, made.env⟩ s₁
      h₁.regular (hr made rfl)
  | error stop =>
    cases stop with
    | failed e =>
      refine .bind (.report h₁.regular e) ?_
      intro _ s₂ h₂ _
      refine .bind (proceeds_poison (declNames p.env d) p.env h₂.regular
        (henv.advance (h₁.trans h₂).store)) ?_
      intro env s₃ h₃ henv₃
      exact hcompress { p with env } s₃ h₃.regular henv₃
    | crashed =>
      refine .bind (Q := fun _ s' => p.env.Within s'.store 0)
        ⟨evolves_of_eq h₁.regular rfl rfl rfl rfl, henv.advance h₁.store, fun _ => rfl⟩ ?_
      intro _ s₂ h₂ henv₂
      exact hcompress p s₂ h₂.regular henv₂

/-- A program after the state is prepared for it. -/
theorem proceeds_program (cfg : Config) (program : Program) (hs : s.Regular)
    (henv : env.Within s.store 0) :
    Proceeds cfg (fun c => do
      let p ← program.foldlM (step c) { env := env.scope }
      let diagnostics := Diagnostic.sort (← get).diagnostics
      let errors := (← get).errorCount
      record .info "elaborated program" [("decls", .number p.decls.length),
        ("errors", .number errors), ("warnings", .number (diagnostics.length - errors))]
      return (⟨p.decls, p.bindings, p.env, diagnostics⟩ : Outcome)) s
      fun o s' => o.env.Within s'.store 0 := by
  refine .bind (.foldlM (P := fun (p : Progress) s' => p.env.Within s'.store 0)
    (fun p d s hs hp => proceeds_step p d hs hp) program _ hs henv.scope) ?_
  intro p s₁ h₁ hp
  refine .get (.get ?_)
  exact ⟨evolves_of_eq h₁.regular rfl rfl rfl rfl, hp, fun _ => rfl⟩

theorem regular_reset (hs : s.store.Regular) :
    s.reset.Regular ∧ s.store.Advances s.reset.store := by
  have hlowered : Store.Lowered s.store s.reset.store :=
    Store.lowered_of_cells rfl rfl fun _ => rfl
  have hadvances := hlowered.advances hs
  exact ⟨⟨hadvances.regular, rfl, fun _ he => absurd he List.not_mem_nil, rfl⟩, hadvances⟩

/-! ## Programs one after the other -/

/-- Elaborate programs one after the other, each in the environment after the one before. -/
def session (cfg : Config) : List Program → Env → StateOnly (List Outcome)
  | [], _ => return []
  | program :: programs, env => do
    let outcome ← elaborateProgram cfg program env
    let outcomes ← session cfg programs outcome.env
    return outcome :: outcomes

/-- A computation that takes the store along but prepares the rest of the state anew. -/
structure Continues (cfg : Config) (f : Config → StateOnly α) (s : State)
    (Q : α → Store → Prop) : Prop where
  store : s.store.Advances (f (cfg.checking false) s).2.store
  result : Q (f (cfg.checking false) s).1 (f (cfg.checking false) s).2.store
  agrees : (f (cfg.checking false) s).2.store.nextId ≤ Store.capacity →
    f (cfg.checking true) s = f (cfg.checking false) s

theorem Continues.bind {f : Config → StateOnly α} {k : Config → α → StateOnly β}
    {Q : α → Store → Prop} {Q' : β → Store → Prop} (hf : Continues cfg f s Q)
    (hk : ∀ a s', s'.store.Regular → Q a s'.store → Continues cfg (fun c => k c a) s' Q') :
    Continues cfg (fun c => f c >>= k c) s Q' := by
  have hrun : ∀ c, (f c >>= k c) s = k c (f c s).1 (f c s).2 := fun _ => rfl
  have hrest := hk _ _ hf.store.regular hf.result
  refine ⟨hf.store.trans hrest.store, hrest.result, ?_⟩
  intro hcap
  rw [hrun] at hcap
  rw [hrun, hrun, hf.agrees (Nat.le_trans hrest.store.nextId_le hcap)]
  exact hrest.agrees hcap

theorem continues_elaborateProgram (program : Program) (hs : s.store.Regular)
    (henv : env.Within s.store 0) :
    Continues cfg (fun c => elaborateProgram c program env) s fun o store =>
      o.env.Within store 0 := by
  obtain ⟨hreset, hadvances⟩ := regular_reset hs
  have hprogram := proceeds_program cfg program hreset (henv.advance hadvances)
  exact ⟨hadvances.trans hprogram.evolves.store, hprogram.result, hprogram.agrees⟩

theorem continues_session (cfg : Config) (programs : List Program) (env : Env) (s : State)
    (hs : s.store.Regular) (henv : env.Within s.store 0) :
    Continues cfg (fun c => session c programs env) s fun _ _ => True := by
  induction programs generalizing env s with
  | nil => exact ⟨.refl hs, trivial, fun _ => rfl⟩
  | cons program programs ih =>
    refine .bind (continues_elaborateProgram program hs henv) ?_
    intro outcome s₁ hs₁ henv₁
    refine .bind (ih outcome.env s₁ hs₁ henv₁) ?_
    intro outcomes s₂ hs₂ _
    exact ⟨.refl hs₂, trivial, fun _ => rfl⟩

/-! ## The prelude -/

/-- The state in which the prelude has just been built. -/
def preludeState : State := { store := (Env.initial {}).2 }

theorem prelude_regular : (Env.initial {}).2.Regular := by
  have hstate : ∀ v, ({} : Store).state v = .linked .lost :=
    fun v => Store.state_of_size_le (Nat.zero_le v)
  refine (Env.regular_initial ⟨?_, ?_, fun _ => 0, ?_⟩).1
  · intro v t ht
    rw [hstate] at ht
    cases ht
    exact fun _ hu => absurd hu List.not_mem_nil
  · intro v l hl
    rw [hstate] at hl
    cases hl
  · exact ⟨nofun, nofun, nofun, nofun⟩

/-! ## The check of generalization -/

/-- A quantified variable is never free in the environment: whether this is checked makes no
difference to the outcomes of programs that are elaborated one after the other from the
prelude on, nor to the state they leave.  The check compares variables by their numbers, so
it must be able to tell them apart: the programs may not use up all numbers. -/
theorem session_checking (cfg : Config) (programs : List Program)
    (hcap : (session (cfg.checking false) programs (Env.initial {}).1 preludeState).2.store.nextId
      ≤ Store.capacity) :
    session (cfg.checking true) programs (Env.initial {}).1 preludeState =
      session (cfg.checking false) programs (Env.initial {}).1 preludeState := by
  have hstore : preludeState.store = (Env.initial {}).2 := by
    simp only [preludeState]
  have hregular : preludeState.store.Regular := by
    rw [hstore]
    exact prelude_regular
  have hwithin : (Env.initial {}).1.Within preludeState.store 0 := by
    rw [hstore]
    exact Env.within_initial {} 0
  have hsession := continues_session cfg programs _ preludeState hregular hwithin
  exact hsession.agrees hcap

/-- `fun pair y = let val g = fn z => (y, z) in g end`, and in a later program
`val cell = ref nil val held = pair cell`. -/
def pairThenHold : List Program :=
  let p := Pos.none
  let pairing : Expr := .fn p [⟨p, .var p "z", none, .tuple p [.var p "y", .var p "z"]⟩]
  let inner : Decl := .val p false (.var p "g") pairing
  let clause : FunClause := ⟨p, [.var p "y"], none, .letIn p [inner] (.var p "g")⟩
  [[.functions p [⟨p, "pair", [clause]⟩]],
    [.val p false (.var p "cell") (.app p (.var p "ref") (.var p "nil")),
      .val p false (.var p "held") (.app p (.var p "pair") (.var p "cell"))]]

theorem session_checking_pairThenHold :
    (session (Config.checking {} false) pairThenHold (Env.initial {}).1
      preludeState).2.store.nextId ≤ Store.capacity ∧
    session (Config.checking {} true) pairThenHold (Env.initial {}).1 preludeState =
      session (Config.checking {} false) pairThenHold (Env.initial {}).1 preludeState := by
  have hcap : (session (Config.checking {} false) pairThenHold (Env.initial {}).1
      preludeState).2.store.nextId ≤ Store.capacity := by
    decide +kernel
  exact ⟨hcap, session_checking {} pairThenHold hcap⟩

end Elaborate

end Typecase
