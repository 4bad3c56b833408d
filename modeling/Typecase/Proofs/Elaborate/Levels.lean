import Typecase.Proofs.Elaborate.Traversal
set_option autoImplicit false

/-!
# Levels of whole programs

What a declaration binds stays within the level that it is made at, and generalizations never fail
the check.  That is so step by step, and so it holds of all expressions and declarations.
-/

namespace Typecase

namespace Elaborate

variable {cfg : Config} {s s' : State} {n : Int} {env : Env} {pos : Pos} {t : Ty}

/-- From regular states, a computation keeps the levels of variables. -/
def KeepsLevels (cfg : Config) : Judgement := fun _ _ d B m _ _ q =>
  ∀ s : State, s.Regular → s.valueDepth = d → s.store.Keeps B →
    Runs cfg m s fun a s' => s'.store.Keeps (q a)

theorem Runs.possible {α : Type} {m : ElaborateM α} {Q : α → State → Prop} (h : Runs cfg m s Q) :
    Runs cfg m s fun a s' => Possible m a ∧ Q a s' :=
  ⟨h.evolves, fun a ha => ⟨⟨_, s, _, Prod.ext ha rfl⟩, h.result a ha⟩, h.agrees⟩

/-- Quantifying a type at the level of its environment succeeds, with or without the check. -/
theorem runs_generalize (hs : s.Regular) (henv : env.Within s.store n) (ht : s.store.Bounded t) :
    Runs cfg (generalize env pos n t) s fun σ s' => s'.store.Keeps (upTo n σ.type.vars) := by
  have hquantifies := Store.generalize_quantifies hs.store ht n
  have hrun : ∀ check, (Store.generalize n t s.store).2.escape?
        (if check then env.freeIds s.store else []) (Store.generalize n t s.store).1 = none →
      generalize env pos n t (cfg.checking check) s =
        (.ok (Store.generalize n t s.store).1,
          { s with store := (Store.generalize n t s.store).2 }) := by
    intro check hnone
    rw [generalize_run, show (cfg.checking check).checkGeneralization = check from rfl, hnone]
    rfl
  have hoff := hrun false (by simp [Store.escape?])
  refine ⟨?_, ?_, ?_⟩
  · rw [hoff]
    exact evolves_store hs (hquantifies.lowered.advances hs.store)
  · rw [hoff]
    intro σ hσ
    cases hσ
    exact Store.keeps_upTo.mpr hquantifies.within
  · intro hcap
    rw [hoff] at hcap ⊢
    refine hrun true (hquantifies.escape?_eq_none hs.store ?_ fun i hi => henv.freeIds hi)
    exact Nat.le_trans (hquantifies.lowered.advances hs.store).nextId_le hcap

/-- Explicit type variables are allocated at the first level. -/
theorem runs_typeVariable (hs : s.Regular) (hn : 1 ≤ n) (name : String) :
    Runs cfg (typeVariable none pos name) s fun t s' => s'.store.Keeps (upTo n t.vars) := by
  have hkeeps : ∀ {s : State} {v : Var}, s.store.WithinVar 1 v →
      s.store.Keeps (upTo n (Ty.var v).vars) :=
    fun hv => Store.keeps_upTo.mpr (Store.within_var.mpr (hv.mono hn))
  unfold typeVariable
  refine .get ?_
  cases hfind : LabelMap.find? s.typeVars name with
  | some v =>
    exact .pure hs (hkeeps (hs.typeVars _ (LabelMap.mem_of_lookup hfind)))
  | none =>
    have hnew : (Ty.fresh s.typeVarLevel s.store).2.WithinVar 1 s.store.size := by
      rw [hs.typeVarLevel]
      exact Store.withinVar_fresh (by decide) (Int.le_refl 1) s.store
    have hlift : Runs cfg (liftStore (Store.fresh s.typeVarLevel)) s fun v s' =>
        s'.store.WithinVar 1 v :=
      .liftStore hs (Store.fresh_advances hs.store s.typeVarLevel) hnew
    refine .bind hlift ?_
    intro v s₁ h₁ hv
    have hevolves : Evolves s₁ { s₁ with typeVars := LabelMap.set s₁.typeVars name v } := by
      refine ⟨⟨h₁.regular.store, h₁.regular.idle, ?_, h₁.regular.typeVarLevel⟩,
        .refl h₁.regular.store, rfl⟩
      intro e he
      rcases LabelMap.mem_set he with he | rfl
      · exact h₁.regular.typeVars e he
      · exact hv
    refine .bind (Q := fun _ s' => s'.store.WithinVar 1 v) (.modify hevolves hv) ?_
    intro _ s₂ h₂ hv'
    exact .pure h₂.regular (hkeeps hv')

/-- Explicit type variables of a declaration at the top are quantified at its level. -/
theorem regular_enterValue (hs : s.Regular) (hn : s.valueDepth = 0 → n = 0) :
    (s.enterValue n).Regular := by
  unfold State.enterValue
  split
  · rename_i h
    refine ⟨hs.store, hs.idle, nofun, ?_⟩
    rw [hn h]
    rfl
  · exact ⟨hs.store, hs.idle, hs.typeVars, hs.typeVarLevel⟩

/-- A value declaration is left in the same way whether it fails or not. -/
theorem keepsLevels_withinValue {α γ : Type} {d : Nat} {B : List Bound} {m m' : ElaborateM α}
    {view : α → γ} {q : α → List Bound} (hn : d = 0 → n = 0)
    (h : KeepsLevels cfg α γ (d + 1) B m m' view q) :
    KeepsLevels cfg α γ d B (withinValue n m) (withinValue n m') view q := by
  rintro s hs rfl hbs
  have hrun := h (s.enterValue n) (regular_enterValue hs hn) (valueDepth_enterValue n s)
    (by rwa [store_enterValue])
  have hequation : ∀ cfg, withinValue n m cfg s =
      ((m cfg (s.enterValue n)).1, (m cfg (s.enterValue n)).2.leaveValue) := fun _ => rfl
  refine ⟨?_, ?_, ?_⟩
  · rw [hequation]
    obtain ⟨hregular, hstore, hdepth⟩ := hrun.evolves
    refine ⟨⟨hregular.store, hregular.idle, hregular.typeVars, hregular.typeVarLevel⟩, ?_, ?_⟩
    · rw [store_enterValue] at hstore
      exact hstore
    · show (m (cfg.checking false) (s.enterValue n)).2.valueDepth - 1 = s.valueDepth
      rw [hdepth, valueDepth_enterValue, Nat.add_sub_cancel]
  · rw [hequation]
    exact hrun.result
  · intro hcap
    rw [hequation] at hcap ⊢
    rw [hequation, hrun.agrees hcap]

/-- Every step keeps the levels of variables.  Declarations are made at levels from 0, so explicit
type variables are used at levels from 1. -/
theorem allSteps_keepsLevels (cfg : Config) :
    AllSteps (0 ≤ ·) (1 ≤ ·) (fun _ => True) (KeepsLevels cfg) where
  base_of_inner := fun h => Int.le_trans (by decide) h
  inner_succ := fun h => Int.add_le_add_right h 1
  pure := fun _ h s hs _ hbs => .pure hs fun b hb => hbs b (h hb)
  inherited := inherited_true
  fail := fun _ _ _ s hs _ _ => .fail hs
  missing := fun _ _ _ s hs _ _ => .fail hs
  crash := fun s hs _ _ => .crash hs
  chain := by
    rintro α γ β δ d B m m' k k' view q view' q' hm hk s hs rfl hbs
    refine .bind (hm s hs rfl hbs).possible fun a s₁ h₁ ⟨hpossible, ha⟩ => ?_
    exact hk a a hpossible rfl s₁ h₁.regular h₁.valueDepth
      (List.forall_mem_append.mpr ⟨ha, hbs.advance h₁.store⟩)
  weaken := by
    intro α γ d B C m m' view q hm h s hs hdepth hcs
    refine hm s hs hdepth fun b hb => ?_
    obtain ⟨l, hl, hmem⟩ := h b hb
    exact (hcs _ hmem).mono hl
  liftStore := by
    intro α d B act q _ hact s hs _ hbs
    obtain ⟨hadvances, hq⟩ := hact (fun _ h => h) s.store hs.store hs.idle hbs
    exact .liftStore hs hadvances hq
  getStore := by
    intro d B ts hts s hs _ hbs
    refine ⟨.refl hs, ?_, fun _ => rfl⟩
    rintro _ ⟨⟩
    refine List.forall_mem_flatMap.mpr fun e he => Store.keeps_upTo.mpr ?_
    have hwithin : s.store.Within e.1 e.2 := hbs.upTo (hts e he)
    exact hwithin.leads hs.store.orderly (Store.head_leads s.store e.2)
  read := fun hk h s hs hdepth hbs =>
    .read (h _ s hs hdepth hbs) ((hk cfg true cfg.maxErrors).trans
      (hk cfg false cfg.maxErrors).symm)
  trace := fun message values s hs _ _ =>
    ⟨evolves_of_eq hs rfl rfl rfl rfl, fun _ _ => nofun, fun _ => rfl⟩
  report := fun _ _ _ _ s hs _ _ =>
    ⟨evolves_of_eq hs rfl rfl rfl rfl, fun _ _ => nofun, fun _ => rfl⟩
  typeVariable := fun _ hn _ name s hs _ _ => runs_typeVariable hs hn name
  countDatatype := by
    rintro α γ d B k k' view q hk s hs rfl hbs
    have hnext : Evolves s { s with datatypes := s.datatypes + 1 } :=
      evolves_of_eq hs rfl rfl rfl rfl
    have hrun := hk s.datatypes _ hnext.regular rfl hbs
    exact ⟨hnext.trans hrun.evolves, hrun.result, hrun.agrees⟩
  generalize := fun henv ht s hs _ hbs =>
    runs_generalize hs (henv.within hbs) fun v hv => (hbs.upTo ht v hv).1
  freshParam := fun s hs _ _ =>
    ⟨evolves_of_eq hs rfl rfl rfl rfl, fun _ _ => nofun, fun _ => rfl⟩
  countException := by
    rintro α γ d B k k' view q hk s hs rfl hbs
    have hnext : Evolves s { s with exceptions := s.exceptions + 1 } :=
      evolves_of_eq hs rfl rfl rfl rfl
    have hrun := hk (s.exceptions + 1) _ hnext.regular rfl hbs
    exact ⟨hnext.trans hrun.evolves, hrun.result, hrun.agrees⟩
  withinValue := keepsLevels_withinValue

/-- A declaration at the top leaves an environment without free variables of deeper levels. -/
theorem runs_elaborateDecl (decl : Source.Decl) (hs : s.Regular) (henv : env.Within s.store 0) :
    Runs cfg (elaborateDecl env 0 decl) s fun made s' => made.env.Within s'.store 0 := by
  have hscope : Steps.DeclScope (0 ≤ ·) (fun _ => True) 0 (upTo 0 env.vars) true env env :=
    ⟨Int.le_refl 0, trivial, .refl env, List.Subset.refl _⟩
  have hrun := (allSteps_keepsLevels cfg).elaborateDecl hscope (fun _ => rfl) decl s hs rfl
    (Env.within_iff.mp henv)
  exact ⟨hrun.evolves, fun made h => Env.within_iff.mpr (hrun.result made h), hrun.agrees⟩

end Elaborate

end Typecase
