import Typecase.Proofs.Elaborate.Traversal
set_option autoImplicit false

/-!
# Two runs side by side

Elaboration does not depend on how the bindings in scope are spread over frames, on the diagnostics
and the log so far, on the names that were made up for parameters, or on explicit type variables
that have gone out of scope.  Two runs that differ in nothing else do the same to the store and
report the same, and their typed expressions differ at most in made-up names.
-/

namespace Typecase.Elaborate

/-! ## States -/

/-- The diagnostics that two runs started with. -/
structure Sides where
  left : List Diagnostic
  right : List Diagnostic

/-- The states of two runs inside `d` value declarations. -/
structure State.Alike (c : Sides) (d : Nat) (s s' : State) : Prop where
  store : s'.store = s.store
  idle : s.store.Idle
  depth : s.valueDepth = d
  depth' : s'.valueDepth = d
  typeVars : d ≠ 0 → s'.typeVars = s.typeVars
  typeVarLevel : d ≠ 0 → s'.typeVarLevel = s.typeVarLevel
  exceptions : s'.exceptions = s.exceptions
  datatypes : s'.datatypes = s.datatypes
  crashed : s'.crashed = s.crashed
  diagnostics : ∃ ds, s.diagnostics = c.left ++ ds ∧ s'.diagnostics = c.right ++ ds

variable {cfg : Config} {c : Sides} {d : Nat} {s s' : State}

/-- The same is done to the store. -/
theorem State.Alike.withStore {store : Store} (h : s.Alike c d s') (hidle : store.Idle) :
    State.Alike c d { s with store } { s' with store } :=
  ⟨rfl, hidle, h.depth, h.depth', h.typeVars, h.typeVarLevel, h.exceptions, h.datatypes,
    h.crashed, h.diagnostics⟩

theorem State.Alike.report (h : s.Alike c d s') (e : Diagnostic) :
    (report e s).2.Alike c d (report e s').2 := by
  obtain ⟨ds, hleft, hright⟩ := h.diagnostics
  refine ⟨h.store, h.idle, h.depth, h.depth', h.typeVars, h.typeVarLevel,
    h.exceptions, h.datatypes, h.crashed, ds ++ [e], ?_, ?_⟩
  · show s.diagnostics ++ [e] = _
    rw [hleft, List.append_assoc]
  · show s'.diagnostics ++ [e] = _
    rw [hright, List.append_assoc]

theorem State.Alike.enterValue (h : s.Alike c d s') (n : Int) :
    (s.enterValue n).Alike c (d + 1) (s'.enterValue n) := by
  unfold State.enterValue
  rw [h.depth, h.depth']
  split
  · rename_i hzero
    subst hzero
    exact ⟨h.store, h.idle, rfl, rfl, fun _ => rfl, fun _ => rfl, h.exceptions, h.datatypes,
      h.crashed, h.diagnostics⟩
  · rename_i hpos
    exact ⟨h.store, h.idle, rfl, rfl, fun _ => h.typeVars hpos, fun _ => h.typeVarLevel hpos,
      h.exceptions, h.datatypes, h.crashed, h.diagnostics⟩

theorem State.Alike.leaveValue (h : s.Alike c (d + 1) s') : s.leaveValue.Alike c d s'.leaveValue :=
  ⟨h.store, h.idle, by simp [State.leaveValue, h.depth], by simp [State.leaveValue, h.depth'],
    fun _ => h.typeVars (Nat.succ_ne_zero d), fun _ => h.typeVarLevel (Nat.succ_ne_zero d),
    h.exceptions, h.datatypes, h.crashed, h.diagnostics⟩

/-! ## Computations -/

/-- From states that are alike, two computations lead to such states, and to the same error or to
results with the same view. -/
def Pairs (cfg : Config) (c : Sides) : Judgement := fun _ _ d _ m m' view _ =>
  ∀ s s', State.Alike c d s s' → (m cfg s).2.Alike c d (m' cfg s').2 ∧
    (m' cfg s').1.map view = (m cfg s).1.map view

/-- Without the check, quantifying a type has nothing to do with the environment. -/
theorem generalize_unchecked (hcheck : cfg.checkGeneralization = false) (env : Env) (pos : Pos)
    (level : Int) (t : Ty) :
    generalize env pos level t cfg = liftStore (Store.generalize level t) cfg := by
  funext s
  have hnone : (Store.generalize level t s.store).2.escape? []
      (Store.generalize level t s.store).1 = none := by simp [Store.escape?]
  rw [generalize_run, hcheck, if_neg Bool.false_ne_true, hnone]
  rfl

theorem pairs_liftStore {α : Type} {b : List Bound} {act : StoreM α} {q : α → List Bound}
    (hquiet : Store.Quiet act) : Pairs cfg c α α d b (liftStore act) (liftStore act) id q := by
  intro s s' hs
  show State.Alike c d { s with store := (act s.store).2 } { s' with store := (act s'.store).2 } ∧
    Except.map id (.ok (act s'.store).1) = Except.map id (.ok (act s.store).1)
  rw [hs.store]
  exact ⟨hs.withStore ((hquiet s.store hs.idle.speculative).idle_of_idle hs.idle), rfl⟩

theorem pairs_bind {α β γ δ : Type} {B : List Bound} {m m' : ElaborateM α}
    {k k' : α → ElaborateM β} {view : α → γ} {q : α → List Bound} {view' : β → δ}
    {q' : β → List Bound} (hm : Pairs cfg c α γ d B m m' view q)
    (hk : ∀ a a', Possible m a → view a' = view a →
      Pairs cfg c β δ d (q a ++ B) (k a) (k' a') view' q') :
    Pairs cfg c β δ d B (m >>= k) (m' >>= k') view' q' := by
  intro s s' hs
  obtain ⟨hstate, hresult⟩ := hm s s' hs
  rw [bind_run, bind_run]
  rcases hrun : m cfg s with ⟨r, s₁⟩
  rcases hrun' : m' cfg s' with ⟨r', s₁'⟩
  rw [hrun, hrun'] at hstate hresult
  cases r with
  | ok a =>
    cases r' with
    | ok a' => exact hk a a' ⟨cfg, s, s₁, hrun⟩ (Except.ok.inj hresult) s₁ s₁' hstate
    | error e => cases hresult
  | error e =>
    cases r' with
    | ok a' => cases hresult
    | error e' =>
      cases hresult
      exact ⟨hstate, rfl⟩

/-- All steps are the same in both runs, but for made-up names. -/
theorem allSteps_pairs (c : Sides) (hcheck : cfg.checkGeneralization = false) :
    AllSteps (fun _ => True) (fun _ => True) (fun _ => True) (Pairs cfg c) where
  base_of_inner := fun h => h
  inner_succ := fun h => h
  inherited := inherited_true
  pure := fun h _ s s' hs => ⟨hs, congrArg Except.ok h⟩
  fail := fun _ _ _ s s' hs => ⟨hs, rfl⟩
  missing := fun _ _ _ s s' hs => ⟨hs, rfl⟩
  crash := fun s s' hs => ⟨hs, rfl⟩
  chain := pairs_bind
  weaken := fun h _ => h
  liftStore := fun hquiet _ => pairs_liftStore hquiet
  getStore := fun _ _ s s' hs => ⟨hs, congrArg Except.ok hs.store⟩
  read := fun _ h => h cfg
  trace := fun _ _ s s' hs =>
    ⟨⟨hs.store, hs.idle, hs.depth, hs.depth', hs.typeVars, hs.typeVarLevel, hs.exceptions,
      hs.datatypes, hs.crashed, hs.diagnostics⟩, rfl⟩
  report := fun _ _ _ _ s s' hs => ⟨hs.report _, rfl⟩
  typeVariable := by
    intro d B n hd _ pos name s s' hs
    rw [typeVariable_run, typeVariable_run, hs.typeVars hd]
    cases LabelMap.find? s.typeVars name with
    | some v => exact ⟨hs, rfl⟩
    | none =>
      have hidle := (Store.quiet_fresh s.typeVarLevel s.store hs.idle.speculative).idle_of_idle
        hs.idle
      simp only [hs.store, hs.typeVarLevel hd]
      exact ⟨⟨rfl, hidle, hs.depth, hs.depth', fun _ => rfl, fun _ => rfl, hs.exceptions,
        hs.datatypes, hs.crashed, hs.diagnostics⟩, trivial⟩
  countDatatype := by
    intro α γ d B k k' view q hk s ⟨_, _, _, _, _, _, _, _, datatypes, _⟩ hs
    obtain rfl : datatypes = s.datatypes := hs.datatypes
    exact hk s.datatypes _ _ ⟨hs.store, hs.idle, hs.depth, hs.depth', hs.typeVars,
      hs.typeVarLevel, hs.exceptions, rfl, hs.crashed, hs.diagnostics⟩
  generalize := by
    intro d B n l env env' pos t _ _ s s' hs
    rw [generalize_unchecked hcheck, generalize_unchecked hcheck]
    exact pairs_liftStore (q := fun _ => []) (b := []) (Store.quiet_generalize n t) s s' hs
  freshParam := fun s s' hs =>
    ⟨⟨hs.store, hs.idle, hs.depth, hs.depth', hs.typeVars, hs.typeVarLevel, hs.exceptions,
      hs.datatypes, hs.crashed, hs.diagnostics⟩, rfl⟩
  countException := by
    intro α γ d B k k' view q hk s ⟨_, _, _, _, _, _, _, exceptions, _, _⟩ hs
    obtain rfl : exceptions = s.exceptions := hs.exceptions
    exact hk (s.exceptions + 1) _ _ ⟨hs.store, hs.idle, hs.depth, hs.depth', hs.typeVars,
      hs.typeVarLevel, rfl, hs.datatypes, hs.crashed, hs.diagnostics⟩
  withinValue := by
    intro α γ d B n m m' view q _ h s s' hs
    obtain ⟨hstate, hresult⟩ := h _ _ (hs.enterValue n)
    exact ⟨hstate.leaveValue, hresult⟩

end Typecase.Elaborate
