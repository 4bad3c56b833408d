import Typecase.Proofs.Elaborate.Generalization
import Typecase.Proofs.Elaborate.Parallel
import Typecase.Proofs.Elaborate.Steps
set_option autoImplicit false

/-!
# Splitting a program

A program may be cut in two and its second part elaborated in the environment after the first.
This opens one more frame and forgets explicit type variables and made-up names, and changes
nothing else: the bindings, what every name means in the end, the store and the diagnostics are
those of the whole program.
-/

namespace Typecase

namespace Elaborate

open Source

variable {cfg : Config} {c : Sides} {exact : Bool} {env env' : Env} {s s' : State}

theorem State.Alike.compress {d : Nat} (h : s.Alike c d s') : s.compress.Alike c d s'.compress := by
  unfold State.compress
  rw [h.store]
  exact h.withStore ((Store.keepsQuiet_compress h.idle.speculative).idle_of_idle h.idle)

/-- The same is done to the store, and no error can occur. -/
theorem State.Alike.inStore {α : Type} {d : Nat} {act : StoreM α} (h : s.Alike c d s')
    (hact : Store.Quiet act) :
    (Elaborate.inStore act s').1 = (Elaborate.inStore act s).1 ∧
      (Elaborate.inStore act s).2.Alike c d (Elaborate.inStore act s').2 := by
  show (act s'.store).1 = (act s.store).1 ∧
    State.Alike c d { s with store := (act s.store).2 } { s' with store := (act s'.store).2 }
  rw [h.store]
  exact ⟨rfl, h.withStore ((hact s.store h.idle.speculative).idle_of_idle h.idle)⟩

/-! ## Declarations that fail -/

mutual

theorem declNames_congr (h : env.Alike exact env') : (decl : Decl) →
    declNames env' decl = declNames env decl
  | .val _ _ p _ => by
    unfold declNames
    rw [isConstructor_congr h]
  | .functions .. | .datatypes .. | .abbreviation .. | .exceptions .. => by
    simp only [declNames]
  | .localIn _ _ body => by
    unfold declNames
    exact declsNames_congr h body

theorem declsNames_congr (h : env.Alike exact env') : (decls : List Decl) →
    declsNames env' decls = declsNames env decls
  | [] => by simp only [declsNames]
  | decl :: decls => by
    unfold declsNames
    rw [declNames_congr h decl, declsNames_congr h decls]

end

theorem poison_alike {d : Nat} (names : List String) (henv : env.Alike exact env')
    (hs : s.Alike c d s') : (poison env names s).1.Alike exact (poison env' names s').1 ∧
      (poison env names s).2.Alike c d (poison env' names s').2 := by
  induction names generalizing env env' s s' with
  | nil => exact ⟨henv, hs⟩
  | cons name names ih =>
    have hrun : ∀ (env : Env) (s : State), poison env (name :: names) s =
        let r := inStore (Ty.fresh 1) s
        let q := inStore (Store.generalize 0 r.1) r.2
        poison (env.bind name q.1) names q.2 := fun _ _ => rfl
    rw [hrun, hrun]
    obtain ⟨ht, hs₁⟩ := hs.inStore (Store.quiet_freshType 1)
    simp only [ht]
    obtain ⟨hσ, hs₂⟩ := hs₁.inStore (Store.quiet_generalize 0 (inStore (Ty.fresh 1) s).1)
    rw [hσ]
    exact ih (henv.bind name _) hs₂

/-! ## Steps -/

/-- What two runs of programs have come to, after bindings `left` and `right`. -/
structure Progress.Alike (left right : List Binding) (p p' : Progress) : Prop where
  env : p.env.Alike false p'.env
  bindings : ∃ bs, p.bindings = left ++ bs ∧ p'.bindings = right ++ bs

variable {left right : List Binding} {p p' : Progress}

theorem State.Alike.crash {d : Nat} (h : s.Alike c d s') : s.crash.Alike c d s'.crash :=
  { h with crashed := rfl }

theorem step_alike (hcheck : cfg.checkGeneralization = false) (hlimit : cfg.maxErrors = 0)
    (hp : p.Alike left right p') (hs : s.Alike c 0 s') (decl : Decl) :
    (step cfg p decl s).1.Alike left right (step cfg p' decl s').1 ∧
      (step cfg p decl s).2.Alike c 0 (step cfg p' decl s').2 := by
  rw [step_run, step_run, isStopped_unlimited hlimit, isStopped_unlimited hlimit, hs.crashed]
  by_cases hcrashed : s.crashed = true
  · rw [if_pos hcrashed, if_pos hcrashed]
    exact ⟨hp, hs⟩
  rw [if_neg hcrashed, if_neg hcrashed]
  have hscope : Steps.DeclScope (fun _ => True) (fun _ => True) 0 (upTo 0 p.env.vars) false p.env
      p'.env :=
    ⟨trivial, trivial, hp.env, List.Subset.refl _⟩
  obtain ⟨hstate, hresult⟩ :=
    (allSteps_pairs c hcheck).elaborateDecl hscope (fun _ => rfl) decl s s' hs
  rcases hrun : elaborateDecl p.env 0 decl cfg s with ⟨r, s₁⟩
  rcases hrun' : elaborateDecl p'.env 0 decl cfg s' with ⟨r', s₁'⟩
  rw [hrun, hrun'] at hstate hresult
  match r, r', hresult with
  | .ok made, .ok made', hmade =>
    obtain ⟨henv, hbindings⟩ := Prod.mk.inj (Except.ok.inj hmade)
    obtain ⟨bs, hleft, hright⟩ := hp.bindings
    refine ⟨⟨Env.view_eq_iff.mp henv, bs ++ made.bindings, ?_, ?_⟩, hstate.compress⟩
    · rw [← List.append_assoc, ← hleft]
    · rw [← List.append_assoc, ← hright, ← hbindings]
  | .error .crashed, .error _, rfl => exact ⟨hp, hstate.crash.compress⟩
  | .error (.failed e), .error _, rfl =>
    simp only [declNames_congr hp.env]
    obtain ⟨henv, hs₂⟩ := poison_alike (declNames p.env decl) hp.env (hstate.report e)
    exact ⟨⟨henv, hp.bindings⟩, hs₂.compress⟩

theorem steps_alike (hcheck : cfg.checkGeneralization = false) (hlimit : cfg.maxErrors = 0)
    (hp : p.Alike left right p') (hs : s.Alike c 0 s') (decls : Program) :
    (steps cfg p decls s).1.Alike left right (steps cfg p' decls s').1 ∧
      (steps cfg p decls s).2.Alike c 0 (steps cfg p' decls s').2 := by
  induction decls generalizing p p' s s' with
  | nil => exact ⟨hp, hs⟩
  | cons decl decls ih =>
    obtain ⟨hp₁, hs₁⟩ := step_alike hcheck hlimit hp hs decl
    rw [steps_cons, steps_cons]
    exact ih hp₁ hs₁

/-- After every declaration the store is compressed. -/
theorem recent_steps (p : Progress) (decls : Program) (hs : s.store.recent = []) :
    (steps cfg p decls s).2.store.recent = [] := by
  induction decls generalizing p s with
  | nil => exact hs
  | cons decl decls ih =>
    rw [steps_cons]
    refine ih _ ?_
    rw [step_run]
    split
    · exact hs
    · split <;> rfl

/-! ## Programs -/

/-- Nothing but explicit type variables and made-up names is forgotten between programs. -/
theorem reset_alike (hs : s.Alike c 0 s') (hrecent : s.store.recent = [])
    (records : List Log.Record) :
    s.Alike ⟨s.diagnostics, []⟩ 0 (State.reset { s with records }) where
  store := by
    show { s.store with recent := [], speculative := false, trail := [], renames := [] } = s.store
    rw [← hs.idle.speculative, ← hs.idle.trail, ← hs.idle.renames, ← hrecent]
  idle := hs.idle
  depth := hs.depth
  depth' := rfl
  typeVars := fun h => absurd rfl h
  typeVarLevel := fun h => absurd rfl h
  exceptions := rfl
  datatypes := rfl
  crashed := rfl
  diagnostics := ⟨[], (List.append_nil _).symm, rfl⟩

/-- Elaborating two programs one after the other comes to the same as elaborating them at once. -/
structure Joins (first second whole : Outcome × State) : Prop where
  bindings : whole.1.bindings = first.1.bindings ++ second.1.bindings
  /-- So the schemes of all bindings are printed alike. -/
  store : second.2.store = whole.2.store
  value? : ∀ x, second.1.env.value? x = whole.1.env.value? x
  type? : ∀ x, second.1.env.type? x = whole.1.env.type? x
  diagnostics : whole.1.diagnostics.Perm (first.1.diagnostics ++ second.1.diagnostics)

/-- A program is cut in two, and generalizations are not checked. -/
theorem joins_unchecked (hcheck : cfg.checkGeneralization = false) (hlimit : cfg.maxErrors = 0)
    (decls later : Program) (env : Env) (s : State) :
    Joins (elaborateProgram cfg decls env s)
      (elaborateProgram cfg later (elaborateProgram cfg decls env s).1.env
        (elaborateProgram cfg decls env s).2)
      (elaborateProgram cfg (decls ++ later) env s) := by
  obtain ⟨records, hfirst⟩ := elaborateProgram_run cfg decls env s
  obtain ⟨_, hwhole⟩ := elaborateProgram_run cfg (decls ++ later) env s
  rw [hfirst]
  generalize hmid : steps cfg { env := env.scope } decls s.reset = mid at *
  obtain ⟨_, hsecond⟩ := elaborateProgram_run cfg later mid.1.env
    { mid.2 with records := mid.2.records ++ records }
  rw [hsecond, hwhole, steps_append, hmid]
  -- the first part leaves no transaction and no value declaration open
  have hstart : s.reset.Alike ⟨[], []⟩ 0 s.reset :=
    ⟨rfl, ⟨rfl, rfl, rfl⟩, rfl, rfl, fun _ => rfl, fun _ => rfl, rfl, rfl, rfl, [], rfl, rfl⟩
  have hnothing : Progress.Alike [] [] { env := env.scope } { env := env.scope } :=
    ⟨.refl env.scope, [], rfl, rfl⟩
  have hbetween := (steps_alike hcheck hlimit hnothing hstart decls).2
  rw [hmid] at hbetween
  have hrecent : (steps cfg { env := env.scope } decls s.reset).2.store.recent = [] :=
    recent_steps _ decls rfl
  rw [hmid] at hrecent
  have hreset : mid.2.Alike ⟨mid.2.diagnostics, []⟩ 0
      (State.reset { mid.2 with records := mid.2.records ++ records }) :=
    reset_alike hbetween hrecent _
  have hcut : Progress.Alike mid.1.bindings [] mid.1 { env := mid.1.env.scope } :=
    ⟨.inner mid.1.env, [], (List.append_nil _).symm, rfl⟩
  obtain ⟨hp, hs⟩ := steps_alike hcheck hlimit hcut hreset later
  obtain ⟨bs, hleft, hright⟩ := hp.bindings
  obtain ⟨ds, hbefore, hafter⟩ := hs.diagnostics
  refine ⟨?_, hs.store, hp.env.value?, hp.env.type?, ?_⟩
  · exact hleft.trans (congrArg (mid.1.bindings ++ ·) hright.symm)
  · refine (sort_perm _).trans ?_
    rw [hbefore]
    refine (sort_perm mid.2.diagnostics).symm.append ?_
    rw [← List.nil_append ds, ← hafter]
    exact (sort_perm _).symm

theorem checking_self (cfg : Config) : cfg.checking cfg.checkGeneralization = cfg := rfl

/-- Splitting a program does not change its meaning.  If generalizations are checked, this is said
of the environments and stores that arise, and of programs that do not use up all numbers. -/
theorem elaborateProgram_append (cfg : Config) (decls later : Program) (env : Env) (s : State)
    (hlimit : cfg.maxErrors = 0)
    (hcheck : cfg.checkGeneralization = true → s.store.Regular ∧ env.Within s.store 0 ∧
      (elaborateProgram (cfg.checking false) (decls ++ later) env s).2.store.nextId ≤
        Store.capacity) :
    Joins (elaborateProgram cfg decls env s)
      (elaborateProgram cfg later (elaborateProgram cfg decls env s).1.env
        (elaborateProgram cfg decls env s).2)
      (elaborateProgram cfg (decls ++ later) env s) := by
  have hjoins : Joins _ _ _ :=
    joins_unchecked (show (cfg.checking false).checkGeneralization = false from rfl) hlimit decls
      later env s
  cases hcase : cfg.checkGeneralization with
  | false =>
    rw [← checking_self cfg, hcase]
    exact hjoins
  | true =>
    obtain ⟨hregular, hwithin, hcap⟩ := hcheck hcase
    rw [← checking_self cfg, hcase]
    have hfirst : Continues cfg (fun c => elaborateProgram c decls env) s _ :=
      continues_elaborateProgram decls hregular hwithin
    have hsecond : Continues cfg (fun c => elaborateProgram c later _) _ _ :=
      continues_elaborateProgram later hfirst.store.regular hfirst.result
    have hwhole : Continues cfg (fun c => elaborateProgram c (decls ++ later) env) s _ :=
      continues_elaborateProgram (decls ++ later) hregular hwithin
    have hcap₂ := hcap
    rw [← hjoins.store] at hcap₂
    have hcap₁ := Nat.le_trans hsecond.store.nextId_le hcap₂
    rw [hwhole.agrees hcap, hfirst.agrees hcap₁, hsecond.agrees hcap₂]
    exact hjoins

/-- `val cell = ref nil val kept = cell val cell = lost`. -/
def holdThenHide : Program :=
  let p := Pos.none
  [.val p false (.var p "cell") (.app p (.var p "ref") (.var p "nil")),
    .val p false (.var p "kept") (.var p "cell"),
    .val p false (.var p "cell") (.var p "lost")]

/-- `val cell = (kept := [0]; kept) val other = lost`: the type of the first program's variable is
refined, and another variable is hidden. -/
def fillThenHide : Program :=
  let p := Pos.none
  let fill : Expr :=
    .app p (.var p ":=") (.tuple p [.var p "kept", .list p [.literal p ⟨.int, "0"⟩]])
  [.val p false (.var p "cell") (.seq p [fill, .var p "kept"]),
    .val p false (.var p "other") (.var p "lost")]

theorem preludeState_regular : preludeState.store.Regular := by
  simp only [preludeState]
  exact prelude_regular

theorem preludeState_within : (Env.initial {}).1.Within preludeState.store 0 := by
  simp only [preludeState]
  exact Env.within_initial {} 0

theorem elaborateProgram_append_holdThenHide :
    (elaborateProgram (Config.checking {} false) (holdThenHide ++ fillThenHide) (Env.initial {}).1
      preludeState).2.store.nextId ≤ Store.capacity ∧
    Joins (elaborateProgram (Config.checking {} true) holdThenHide (Env.initial {}).1 preludeState)
      (elaborateProgram (Config.checking {} true) fillThenHide
        (elaborateProgram (Config.checking {} true) holdThenHide (Env.initial {}).1
          preludeState).1.env
        (elaborateProgram (Config.checking {} true) holdThenHide (Env.initial {}).1
          preludeState).2)
      (elaborateProgram (Config.checking {} true) (holdThenHide ++ fillThenHide) (Env.initial {}).1
        preludeState) := by
  have hcap : (elaborateProgram (Config.checking {} false) (holdThenHide ++ fillThenHide)
      (Env.initial {}).1 preludeState).2.store.nextId ≤ Store.capacity := by
    decide +kernel
  have hconfig : (Config.checking {} true).checking false = Config.checking {} false := rfl
  refine ⟨hcap, elaborateProgram_append (Config.checking {} true) holdThenHide fillThenHide
    (Env.initial {}).1 preludeState rfl fun _ => ?_⟩
  rw [hconfig]
  exact ⟨preludeState_regular, preludeState_within, hcap⟩

end Elaborate

end Typecase
