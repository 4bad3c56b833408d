import Typecase.Proofs.Elaborate.Stepwise
import Typecase.Proofs.Elaborate.Registry
set_option autoImplicit false

/-!
# Positions do not matter

Elaboration writes diagnostics and log records and never reads them.  So two computations that
differ only in the positions they report come to the same: they succeed alike, with the same
result, and leave states that differ only in positions and in the log.
-/

namespace Typecase

/-- What a diagnostic says, wherever it says so. -/
def Diagnostic.content (d : Diagnostic) : DiagnosticKind × Severity × String :=
  (d.kind, d.severity, d.message)

namespace Elaborate

open Source

variable {α β γ δ : Type} {cfg : Config} {s s' : State}

/-- What the error says with which a computation stops; there is none if it breaks down. -/
def Stop.content : Stop → Option (DiagnosticKind × Severity × String)
  | .failed d => some d.content
  | .crashed => none

/-- Two states that differ at most in the log and in the positions of diagnostics. -/
def State.UpToPositions (s s' : State) : Prop :=
  ∃ diagnostics records, diagnostics.map Diagnostic.content = s.diagnostics.map Diagnostic.content ∧
    s' = { s with diagnostics, records }

theorem State.UpToPositions.refl (s : State) : s.UpToPositions s := ⟨_, _, rfl, rfl⟩

theorem State.UpToPositions.trans {s'' : State} (h : s.UpToPositions s')
    (h' : s'.UpToPositions s'') : s.UpToPositions s'' := by
  obtain ⟨ds, rs, hds, rfl⟩ := h
  obtain ⟨ds', rs', hds', rfl⟩ := h'
  exact ⟨ds', rs', hds'.trans hds, rfl⟩

theorem State.UpToPositions.report {d d' : Diagnostic} (h : s.UpToPositions s')
    (hd : d'.content = d.content) :
    (Elaborate.report d s).2.UpToPositions (Elaborate.report d' s').2 := by
  obtain ⟨ds, rs, hds, rfl⟩ := h
  refine ⟨ds ++ [d'], _, ?_, rfl⟩
  show (ds ++ [d']).map Diagnostic.content = (s.diagnostics ++ [d]).map Diagnostic.content
  rw [List.map_append, List.map_append, hds, List.map_cons, List.map_cons, hd]

theorem State.UpToPositions.enterValue (h : s.UpToPositions s') (level : Int) :
    (s.enterValue level).UpToPositions (s'.enterValue level) := by
  obtain ⟨ds, rs, hds, rfl⟩ := h
  unfold State.enterValue
  split <;> exact ⟨ds, rs, hds, rfl⟩

theorem State.UpToPositions.leaveValue (h : s.UpToPositions s') :
    s.leaveValue.UpToPositions s'.leaveValue := by
  obtain ⟨ds, rs, hds, hs'⟩ := h
  exact ⟨ds, rs, hds, congrArg State.leaveValue hs'⟩

/-! ## One computation -/

/-- What was reported before makes no difference to `m`. -/
def Unaffected (cfg : Config) (m : ElaborateM α) : Prop :=
  ∀ s s', s.UpToPositions s' →
    (m cfg s').1 = (m cfg s).1 ∧ (m cfg s).2.UpToPositions (m cfg s').2

theorem Unaffected.bind {m : ElaborateM α} {k : α → ElaborateM β} (hm : Unaffected cfg m)
    (hk : ∀ a, Possible m a → Unaffected cfg (k a)) : Unaffected cfg (m >>= k) := by
  intro s s' hs
  obtain ⟨hresult, hstate⟩ := hm s s' hs
  rw [bind_run, bind_run]
  rcases hrun : m cfg s with ⟨r, s₁⟩
  rcases hrun' : m cfg s' with ⟨r', s₁'⟩
  rw [hrun, hrun'] at hresult hstate
  cases hresult
  cases r with
  | error e => exact ⟨rfl, hstate⟩
  | ok a => exact hk a ⟨cfg, s, s₁, hrun⟩ s₁ s₁' hstate

theorem Unaffected.withinValue {m : ElaborateM α} (level : Int) (hm : Unaffected cfg m) :
    Unaffected cfg (withinValue level m) := by
  intro s s' hs
  obtain ⟨hresult, hstate⟩ := hm _ _ (hs.enterValue level)
  exact ⟨hresult, hstate.leaveValue⟩

/-- Nothing in elaboration reads what was reported. -/
theorem pervasive_unaffected : Pervasive (fun _ => True) fun _ m => Unaffected cfg m where
  pure := fun _ _ _ hs => ⟨rfl, hs⟩
  fail := fun _ _ _ _ _ hs => ⟨rfl, hs⟩
  crash := fun _ _ hs => ⟨rfl, hs⟩
  chain := Unaffected.bind
  inherited := inherited_true
  missing := fun _ _ _ _ _ hs => ⟨rfl, hs⟩
  liftStore := by
    rintro α act - s _ ⟨ds, rs, hds, rfl⟩
    exact ⟨rfl, ds, rs, hds, rfl⟩
  getStore := by
    rintro s _ ⟨ds, rs, hds, rfl⟩
    exact ⟨rfl, ds, rs, hds, rfl⟩
  read := fun hk _ => .bind (fun _ _ hs => ⟨rfl, hs⟩) fun c _ => hk c
  trace := by
    rintro message values s _ ⟨ds, rs, hds, rfl⟩
    exact ⟨rfl, _, _, hds, rfl⟩
  report := fun _ _ _ _ _ _ hs => ⟨rfl, hs.report rfl⟩
  typeVariable := by
    rintro pos name s _ ⟨ds, rs, hds, rfl⟩
    rw [typeVariable_run, typeVariable_run]
    cases LabelMap.find? s.typeVars name with
    | some v | none => exact ⟨rfl, ds, rs, hds, rfl⟩
  countDatatype := by
    rintro β k hk s _ ⟨ds, rs, hds, rfl⟩
    exact hk s.datatypes { s with datatypes := s.datatypes + 1 } _ ⟨ds, rs, hds, rfl⟩
  freshParam := by
    rintro s _ ⟨ds, rs, hds, rfl⟩
    exact ⟨rfl, ds, rs, hds, rfl⟩
  countException := by
    rintro β k hk s _ ⟨ds, rs, hds, rfl⟩
    exact hk (s.exceptions + 1) { s with exceptions := s.exceptions + 1 } _ ⟨ds, rs, hds, rfl⟩
  withinValue := Unaffected.withinValue

/-! ## Two computations -/

/-- Two outcomes: results related by `R`, errors that say the same, or breakdowns. -/
inductive Succeed (R : α → β → Prop) : Except Stop α → Except Stop β → Prop
  | ok {a : α} {b : β} : R a b → Succeed R (.ok a) (.ok b)
  | error {d e : Stop} : d.content = e.content → Succeed R (.error d) (.error e)

/-- From states that differ at most in the log and in positions, `m` and `m'` lead to such states,
and succeed alike with results related by `R`. -/
def Alike (cfg : Config) (m : ElaborateM α) (m' : ElaborateM β) (R : α → β → Prop) : Prop :=
  ∀ s s', s.UpToPositions s' →
    Succeed R (m cfg s).1 (m' cfg s').1 ∧ (m cfg s).2.UpToPositions (m' cfg s').2

section Alike

variable {m : ElaborateM α} {m' : ElaborateM β} {k : α → ElaborateM γ} {k' : β → ElaborateM δ}
  {R : α → β → Prop} {R' : γ → δ → Prop}

theorem Alike.same (hm : Unaffected cfg m) : Alike cfg m m Eq := by
  intro s s' hs
  obtain ⟨hresult, hstate⟩ := hm s s' hs
  refine ⟨?_, hstate⟩
  rw [hresult]
  cases (m cfg s).1 with
  | error e => exact .error rfl
  | ok a => exact .ok rfl

theorem Alike.pure {a : α} {b : β} (h : R a b) : Alike cfg (pure a) (pure b) R :=
  fun _ _ hs => ⟨.ok h, hs⟩

theorem Alike.fail {pos pos' : Pos} {p : Problem} :
    Alike cfg (fail pos p : ElaborateM α) (Elaborate.fail pos' p : ElaborateM β) R :=
  fun _ _ hs => ⟨.error rfl, hs⟩

theorem Alike.bind (hm : Alike cfg m m' R) (hk : ∀ a b, R a b → Alike cfg (k a) (k' b) R') :
    Alike cfg (m >>= k) (m' >>= k') R' := by
  intro s s' hs
  obtain ⟨hresult, hstate⟩ := hm s s' hs
  rw [bind_run, bind_run]
  rcases hrun : m cfg s with ⟨r, s₁⟩
  rcases hrun' : m' cfg s' with ⟨r', s₁'⟩
  rw [hrun, hrun'] at hresult hstate
  cases hresult with
  | error hde => exact ⟨.error hde, hstate⟩
  | ok hab => exact hk _ _ hab s₁ s₁' hstate

/-- The same is done on both sides. -/
theorem Alike.after {k' : α → ElaborateM δ} (hm : Unaffected cfg m)
    (hk : ∀ a, Alike cfg (k a) (k' a) R') : Alike cfg (m >>= k) (m >>= k') R' :=
  .bind (.same hm) fun a _ heq => heq ▸ hk a

/-- One side logs more than the other. -/
theorem Alike.traced {message : String} {values : List (String × Log.Value)}
    (h : Alike cfg m m' R) : Alike cfg (trace message values >>= fun _ => m) m' R := by
  intro s s' hs
  have htrace : (trace message values cfg s).2.UpToPositions s' :=
    State.UpToPositions.trans ⟨s.diagnostics, s.records, rfl, rfl⟩ hs
  exact h _ _ htrace

theorem Alike.withinValue {level : Int} (h : Alike cfg m m' R) :
    Alike cfg (withinValue level m) (Elaborate.withinValue level m') R := by
  intro s s' hs
  obtain ⟨hresult, hstate⟩ := h _ _ (hs.enterValue level)
  exact ⟨hresult, hstate.leaveValue⟩

end Alike

/-! ## Positions -/

section Positions

variable {env : Env} {level : Int} (pos pos' : Pos)

theorem alike_unify (expected found : Ty) :
    Alike cfg (unify pos expected found) (unify pos' expected found) Eq := by
  refine .after (pervasive_unaffected.liftStore (Store.quiet_unify expected found)) fun r => ?_
  cases r with
  | ok _ => exact .pure rfl
  | error e => exact .after pervasive_unaffected.getStore fun _ => .fail

theorem alike_generalize (t : Ty) :
    Alike cfg (generalize env pos level t) (generalize env pos' level t) Eq := by
  unfold generalize
  refine .after pervasive_unaffected.getStore fun before => .after (fun _ _ hs => ⟨rfl, hs⟩) fun c =>
    .after (pervasive_unaffected.liftStore (Store.quiet_generalize level t)) fun σ =>
      .after pervasive_unaffected.getStore fun s => ?_
  split
  · exact .fail
  · exact .pure rfl

theorem alike_report {d d' : Diagnostic} (hd : d'.content = d.content) :
    Alike cfg (liftM (report d) : ElaborateM Unit) (liftM (report d')) Eq :=
  fun _ _ hs => ⟨.ok rfl, hs.report hd⟩

theorem alike_trace (message message' : String) (values values' : List (String × Log.Value)) :
    Alike cfg (trace message values) (trace message' values') Eq := by
  rintro s _ ⟨ds, rs, hds, rfl⟩
  exact ⟨.ok rfl, _, _, hds, rfl⟩

theorem alike_reportMissing (site : MatchSite) (r : Match.Result) :
    Alike cfg (reportMissing site pos r) (reportMissing site pos' r) Eq := by
  unfold reportMissing
  split
  · exact .after (fun _ _ hs => ⟨rfl, hs⟩) fun _ => alike_report rfl
  · exact .pure rfl

theorem alike_compileMatch (site : MatchSite) (clauses : List (Match.Clause Note))
    (scrutinee : Ty) :
    Alike cfg (compileMatch site pos clauses scrutinee) (compileMatch site pos' clauses scrutinee)
      Eq := by
  unfold compileMatch
  refine .after pervasive_unaffected.getStore fun s => ?_
  split
  · exact .same pervasive_unaffected.crash
  · exact .fail
  · rename_i r _
    exact .bind (alike_trace _ _ _ _) fun _ _ _ =>
      .bind (alike_reportMissing pos pos' site r) fun _ _ _ =>
        .after (pervasive_unaffected.reportRedundant _ r) fun _ => .pure rfl

end Positions

end Elaborate

end Typecase
