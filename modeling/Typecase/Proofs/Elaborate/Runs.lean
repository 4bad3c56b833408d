import Typecase.Elaborate.Expr
import Typecase.Proofs.Types.Quantify
set_option autoImplicit false

/-!
# Runs of the elaborator

A run of the elaborator takes the store along, whether it stops with an error or not.  As long
as the capacity of the store is not exceeded, it does not matter whether generalizations are
checked.
-/

namespace Typecase

/-- The configuration with the check of generalizations switched on or off. -/
def Config.checking (cfg : Config) (check : Bool) : Config := { cfg with checkGeneralization := check }

namespace Elaborate

variable {α β : Type} {cfg : Config} {s s' s'' : State} {n : Int}

/-! ## States -/

/-- What holds of every state that arises.  Explicit type variables are allocated at the first
level. -/
structure State.Regular (s : State) : Prop where
  store : s.store.Regular
  idle : s.store.renames = []
  typeVars : ∀ e ∈ s.typeVars, s.store.WithinVar 1 e.2
  typeVarLevel : s.typeVarLevel = 1

/-- `s'` is a regular state that came after `s`. -/
structure Evolves (s s' : State) : Prop where
  regular : s'.Regular
  store : s.store.Advances s'.store
  valueDepth : s'.valueDepth = s.valueDepth

theorem Evolves.refl (hs : s.Regular) : Evolves s s := ⟨hs, .refl hs.store, rfl⟩

theorem Evolves.trans (h : Evolves s s') (h' : Evolves s' s'') : Evolves s s'' :=
  ⟨h'.regular, h.store.trans h'.store, h'.valueDepth.trans h.valueDepth⟩

/-- A change of nothing but the store. -/
theorem evolves_store (hs : s.Regular) {store : Store} (h : s.store.Advances store) :
    Evolves s { s with store } :=
  ⟨⟨h.regular, h.idle hs.idle, fun e he => (hs.typeVars e he).advance h, hs.typeVarLevel⟩, h, rfl⟩

/-- A change that concerns neither the store nor type variables. -/
theorem evolves_of_eq (hs : s.Regular) (hstore : s'.store = s.store)
    (hvars : s'.typeVars = s.typeVars) (hlevel : s'.typeVarLevel = s.typeVarLevel)
    (hdepth : s'.valueDepth = s.valueDepth) : Evolves s s' := by
  refine ⟨⟨?_, ?_, ?_, hlevel.trans hs.typeVarLevel⟩, ?_, hdepth⟩
  · rw [hstore]
    exact hs.store
  · rw [hstore]
    exact hs.idle
  · rw [hstore, hvars]
    exact hs.typeVars
  · rw [hstore]
    exact .refl hs.store

theorem store_enterValue (n : Int) (s : State) : (s.enterValue n).store = s.store := by
  unfold State.enterValue
  split <;> rfl

theorem valueDepth_enterValue (n : Int) (s : State) :
    (s.enterValue n).valueDepth = s.valueDepth + 1 := by
  unfold State.enterValue
  split
  · rename_i h
    show 1 = s.valueDepth + 1
    rw [h]
  · rfl

/-! ## Computations -/

theorem bind_run (m : ElaborateM α) (k : α → ElaborateM β) (cfg : Config) (s : State) :
    (m >>= k) cfg s = match m cfg s with
      | (.ok a, s₁) => k a cfg s₁
      | (.error e, s₁) => (.error e, s₁) := by
  show ExceptT.bindCont (fun a => k a cfg) (m cfg s).1 (m cfg s).2 = _
  rcases m cfg s with ⟨r, s₁⟩
  cases r <;> rfl

/-- What an explicit type variable does to the state. -/
theorem typeVariable_run (cfg : Config) (pos : Pos) (name : String) (s : State) :
    typeVariable none pos name cfg s = match LabelMap.find? s.typeVars name with
      | some v => (.ok (.var v), s)
      | none => (.ok (.var s.store.size),
        { s with
          store := (Store.fresh s.typeVarLevel s.store).2
          typeVars := LabelMap.set s.typeVars name s.store.size }) := by
  show (match LabelMap.find? s.typeVars name with
    | some v => Pure.pure (Ty.var v)
    | none => do
      let v ← liftStore (Store.fresh s.typeVarLevel)
      modify fun s => { s with typeVars := LabelMap.set s.typeVars name v }
      return .var v : ElaborateM Ty) cfg s = _
  cases LabelMap.find? s.typeVars name <;> rfl

/-- How a type is quantified, and what is checked then. -/
theorem generalize_run (cfg : Config) (env : Env) (pos : Pos) (level : Int) (t : Ty) (s : State) :
    generalize env pos level t cfg s = (match (Store.generalize level t s.store).2.escape?
        (if cfg.checkGeneralization then env.freeIds s.store else [])
        (Store.generalize level t s.store).1 with
      | some e => fail pos (.escape (e.message (Store.generalize level t s.store).2))
      | none => Pure.pure (Store.generalize level t s.store).1 : ElaborateM Scheme) cfg
        { s with store := (Store.generalize level t s.store).2 } :=
  rfl

/-! ## Runs -/

/-- From `s`, the computation `m` leads to a later state, and to a result with `Q` if it
succeeds; it does the same when generalizations are checked. -/
structure Runs (cfg : Config) (m : ElaborateM α) (s : State) (Q : α → State → Prop) : Prop where
  evolves : Evolves s (m (cfg.checking false) s).2
  result : ∀ a, (m (cfg.checking false) s).1 = .ok a → Q a (m (cfg.checking false) s).2
  agrees : (m (cfg.checking false) s).2.store.nextId ≤ Store.capacity →
    m (cfg.checking true) s = m (cfg.checking false) s

section Runs

variable {m : ElaborateM α} {k : α → ElaborateM β} {Q : α → State → Prop} {Q' : β → State → Prop}

theorem Runs.pure {a : α} (hs : s.Regular) (ha : Q a s) : Runs cfg (pure a) s Q where
  evolves := .refl hs
  result := by
    intro b hb
    cases hb
    exact ha
  agrees := fun _ => rfl

theorem Runs.fail {pos : Pos} {p : Problem} (hs : s.Regular) :
    Runs cfg (fail pos p : ElaborateM α) s Q where
  evolves := .refl hs
  result := nofun
  agrees := fun _ => rfl

theorem Runs.crash (hs : s.Regular) : Runs cfg (crash : ElaborateM α) s Q where
  evolves := .refl hs
  result := nofun
  agrees := fun _ => rfl

/-- One computation after another.  The supply of numbers never shrinks, so if it lasts to the
end, it lasted until the middle. -/
theorem Runs.bind (hm : Runs cfg m s Q)
    (hk : ∀ a s', Evolves s s' → Q a s' → Runs cfg (k a) s' Q') : Runs cfg (m >>= k) s Q' := by
  have hrun := fun cfg => bind_run m k cfg s
  rcases hms : m (cfg.checking false) s with ⟨r, s₁⟩
  have hevolves := hm.evolves
  have hresult := hm.result
  have hagrees := hm.agrees
  rw [hms] at hevolves hresult hagrees
  cases r with
  | error e =>
    have hend : (m >>= k) (cfg.checking false) s = (.error e, s₁) := by rw [hrun, hms]
    refine ⟨?_, ?_, ?_⟩
    · rw [hend]
      exact hevolves
    · rw [hend]
      exact nofun
    · intro hcap
      rw [hend] at hcap ⊢
      rw [hrun, hagrees hcap]
  | ok a =>
    have hrest := hk a s₁ hevolves (hresult a rfl)
    have hend : (m >>= k) (cfg.checking false) s = k a (cfg.checking false) s₁ := by
      rw [hrun, hms]
    refine ⟨?_, ?_, ?_⟩
    · rw [hend]
      exact hevolves.trans hrest.evolves
    · rw [hend]
      exact hrest.result
    · intro hcap
      rw [hend] at hcap ⊢
      rw [hrun, hagrees (Nat.le_trans hrest.evolves.store.nextId_le hcap)]
      exact hrest.agrees hcap

/-! ## What computations read -/

theorem Runs.get {k : State → ElaborateM β} (h : Runs cfg (k s) s Q') : Runs cfg (get >>= k) s Q' :=
  ⟨h.evolves, h.result, h.agrees⟩

/-- A part of the configuration that has nothing to do with generalizations. -/
theorem Runs.read {k : Config → ElaborateM β} (h : Runs cfg (k (cfg.checking false)) s Q')
    (hk : k (cfg.checking true) = k (cfg.checking false)) : Runs cfg (read >>= k) s Q' := by
  refine ⟨h.evolves, h.result, ?_⟩
  intro hcap
  show k (cfg.checking true) (cfg.checking true) s = k (cfg.checking false) (cfg.checking false) s
  rw [hk]
  exact h.agrees hcap

/-! ## What computations do to the state -/

theorem Runs.liftStore {act : StoreM α} (hs : s.Regular) (h : s.store.Advances (act s.store).2)
    (hQ : Q (act s.store).1 { s with store := (act s.store).2 }) :
    Runs cfg (liftStore act) s Q where
  evolves := evolves_store hs h
  result := by
    intro a ha
    cases ha
    exact hQ
  agrees := fun _ => rfl

theorem Runs.modify {f : State → State} {Q : PUnit → State → Prop} (h : Evolves s (f s))
    (hQ : Q ⟨⟩ (f s)) : Runs cfg (modify f : ElaborateM PUnit) s Q :=
  ⟨h, fun _ _ => hQ, fun _ => rfl⟩

end Runs

end Elaborate

end Typecase
