import Typecase.Proofs.Elaborate.Exports
import Typecase.Proofs.Elaborate.Stepwise
import Typecase.Proofs.Elaborate.Steps
set_option autoImplicit false

/-!
# Names that replace those of failed declarations

A declaration that fails binds its names all the same, at the most general type.  They stay bound
in all that follows, so no variable of theirs is ever called unbound.  But they are bound to
ordinary values: constructors that a failed declaration would have declared are not replaced by
constructors, so patterns that test them are refused.
-/

namespace Typecase

/-- A diagnostic that says that the variable `x` is not in scope. -/
def Diagnostic.Misses (x : String) (d : Diagnostic) : Prop :=
  d.kind = .unboundIdentifier ∧ d.message = "Unbound identifier " ++ x

/-- Only the problem that `x` is not in scope is put in these words. -/
theorem Problem.missing?_of_misses {p : Problem} {severity : Severity} {pos : Pos} {x : String}
    (h : (p.diagnostic severity pos).Misses x) : p.missing? = some x := by
  obtain ⟨hkind, hmessage⟩ := h
  cases p with
  | unboundIdentifier y =>
    have hsame : "Unbound identifier " ++ y = "Unbound identifier " ++ x := hmessage
    have hname : y = x := by simpa using hsame
    rw [hname]
    rfl
  | unboundConstructor y =>
    have hsame : "Unbound constructor " ++ y = "Unbound identifier " ++ x := hmessage
    have hletter := congrArg (fun text => text.toList[8]?) hsame
    simp [String.toList_append] at hletter
  | unification k text curried =>
    cases k with
    | none => cases hkind
    | some k => cases k <;> cases hkind
  | _ => cases hkind

namespace Elaborate

open Source

variable {α : Type} {cfg : Config} {env : Env} {x : String}

/-! ## Names in scope -/

/-- A name that is bound stays bound in all environments that are made from this one. -/
theorem inherited_isSome (x : String) : Inherited fun env => (env.value? x).isSome = true where
  scope := fun h => h
  bind := by
    intro env name σ h
    rw [Env.bind, Env.value?_bindValue]
    split
    · rfl
    · exact h
  decl := by
    rintro env level d r ⟨cfg, s, s', hrun⟩ h
    rw [(exports_elaborateDecl env level d s r s' hrun).value?, Option.isSome_or, h, Bool.or_true]
  decls := by
    rintro env level ds r ⟨cfg, s, s', hrun⟩ h
    rw [(exports_elaborateDecls env level ds s r s' hrun).value?, Option.isSome_or, h, Bool.or_true]
  component := by
    rintro env level fs r ⟨cfg, s, s', hrun⟩ h
    rw [(exports_component fs s r s' hrun).1.value?, Option.isSome_or, h, Bool.or_true]

/-- From `s` to `s'` diagnostics are only added, and none says that `x` is not in scope. -/
def Spared (x : String) (s s' : State) : Prop :=
  ∃ ds, s'.diagnostics = s.diagnostics ++ ds ∧ ∀ d ∈ ds, ¬ d.Misses x

theorem Spared.of_eq {s s' : State} (h : s'.diagnostics = s.diagnostics) : Spared x s s' :=
  ⟨[], by rw [h, List.append_nil], nofun⟩

theorem Spared.trans {s s' s'' : State} (h : Spared x s s') (h' : Spared x s' s'') :
    Spared x s s'' := by
  obtain ⟨ds, hds, hspared⟩ := h
  obtain ⟨ds', hds', hspared'⟩ := h'
  refine ⟨ds ++ ds', by rw [hds', hds, List.append_assoc], ?_⟩
  exact List.forall_mem_append.mpr ⟨hspared, hspared'⟩

theorem Spared.report {d : Diagnostic} (hd : ¬ d.Misses x) (s : State) :
    Spared x s (report d s).2 :=
  ⟨[d], rfl, List.forall_mem_singleton.mpr hd⟩

/-- `m` never says that `x` is not in scope. -/
def Spares (x : String) (m : ElaborateM α) : Prop :=
  ∀ cfg s, Spared x s (m cfg s).2 ∧ ∀ e, (m cfg s).1 = .error (.failed e) → ¬ e.Misses x

theorem Spares.of_ok {m : ElaborateM α} (h : ∀ cfg s, ∃ a s', m cfg s = (.ok a, s') ∧
    s'.diagnostics = s.diagnostics) : Spares x m := by
  intro cfg s
  obtain ⟨a, s', hrun, hds⟩ := h cfg s
  rw [hrun]
  exact ⟨.of_eq hds, nofun⟩

theorem Spares.fail {pos : Pos} {p : Problem} (hp : p.missing? ≠ some x) :
    Spares x (fail pos p : ElaborateM α) := by
  intro cfg s
  refine ⟨.of_eq rfl, ?_⟩
  rintro _ ⟨⟩ hmisses
  exact hp (Problem.missing?_of_misses hmisses)

theorem Spares.bind {β : Type} {m : ElaborateM α} {k : α → ElaborateM β} (hm : Spares x m)
    (hk : ∀ a, Possible m a → Spares x (k a)) : Spares x (m >>= k) := by
  intro cfg s
  obtain ⟨hstate, herror⟩ := hm cfg s
  rw [bind_run]
  rcases hrun : m cfg s with ⟨r, s₁⟩
  rw [hrun] at hstate herror
  cases r with
  | error e => exact ⟨hstate, fun _ he => herror _ (by cases he; rfl)⟩
  | ok a =>
    obtain ⟨hlater, hlast⟩ := hk a ⟨cfg, s, s₁, hrun⟩ cfg s₁
    exact ⟨hstate.trans hlater, hlast⟩

/-- Where `x` is bound, elaboration never says that it is not in scope. -/
theorem spares (x : String) :
    Pervasive (fun env => (env.value? x).isSome = true) fun _ m => Spares x m where
  pure := fun a => .of_ok fun _ s => ⟨a, s, rfl, rfl⟩
  fail := fun _ _ hp => .fail (by simp [hp])
  crash := fun _ _ => ⟨.of_eq rfl, nofun⟩
  chain := Spares.bind
  inherited := inherited_isSome x
  missing := by
    intro α env name pos hbound hname
    refine .fail ?_
    rintro ⟨⟩
    simp [hname] at hbound
  liftStore := fun _ => .of_ok fun _ s => ⟨_, _, rfl, rfl⟩
  getStore := .of_ok fun _ s => ⟨_, _, rfl, rfl⟩
  read := fun hk _ => .bind (.of_ok fun c s => ⟨c, s, rfl, rfl⟩) fun c _ => hk c
  trace := fun _ _ => .of_ok fun _ s => ⟨_, _, rfl, rfl⟩
  report := by
    intro p severity pos hp cfg s
    refine ⟨.report ?_ s, nofun⟩
    intro hmisses
    rw [Problem.missing?_of_misses hmisses] at hp
    cases hp
  typeVariable := by
    intro pos name
    refine .of_ok fun cfg s => ?_
    rw [typeVariable_run]
    split
    · exact ⟨_, _, rfl, rfl⟩
    · exact ⟨_, _, rfl, rfl⟩
  countDatatype := fun hk cfg s => hk s.datatypes cfg { s with datatypes := s.datatypes + 1 }
  freshParam := .of_ok fun _ s => ⟨_, _, rfl, rfl⟩
  countException := fun hk cfg s => hk (s.exceptions + 1) cfg { s with exceptions := s.exceptions + 1 }
  withinValue := by
    intro α m level hm cfg s
    have henter : (s.enterValue level).diagnostics = s.diagnostics := by
      unfold State.enterValue
      split <;> rfl
    obtain ⟨hstate, herror⟩ := hm cfg (s.enterValue level)
    exact ⟨(Spared.of_eq henter).trans (hstate.trans (.of_eq rfl)), herror⟩

/-! ## Programs -/

theorem poison_cons (env : Env) (name : String) (names : List String) (s : State) :
    ∃ σ s₁, poison env (name :: names) s = poison (env.bind name σ) names s₁ ∧
      s₁.diagnostics = s.diagnostics :=
  ⟨_, _, rfl, rfl⟩

/-- The names of a failed declaration are bound to ordinary values, and other names keep their
meaning. -/
theorem poison_run (names : List String) (env : Env) (s : State) :
    (poison env names s).2.diagnostics = s.diagnostics ∧
      (∀ x ∈ names, ∃ σ, (poison env names s).1.value? x = some { scheme := σ }) ∧
      ∀ x, x ∉ names → (poison env names s).1.value? x = env.value? x := by
  induction names generalizing env s with
  | nil => exact ⟨rfl, nofun, fun _ _ => rfl⟩
  | cons name names ih =>
    obtain ⟨σ, s₁, hrun, hs₁⟩ := poison_cons env name names s
    obtain ⟨hds, hin, hout⟩ := ih (env.bind name σ) s₁
    rw [hrun]
    refine ⟨hds.trans hs₁, ?_, ?_⟩
    · intro x hx
      by_cases hlater : x ∈ names
      · exact hin x hlater
      · obtain rfl : x = name := (List.mem_cons.mp hx).resolve_right hlater
        exact ⟨σ, by rw [hout x hlater, Env.bind, Env.value?_bindValue, if_pos rfl]⟩
    · intro x hx
      obtain ⟨hname, hlater⟩ := not_or.mp (List.mem_cons.not.mp hx)
      rw [hout x hlater, Env.bind, Env.value?_bindValue, if_neg hname]

theorem step_spared {p : Progress} (hp : (p.env.value? x).isSome = true) (d : Decl) (s : State) :
    Spared x s (step cfg p d s).2 ∧ ((step cfg p d s).1.env.value? x).isSome = true := by
  rw [step_run]
  split
  · exact ⟨.of_eq rfl, hp⟩
  · obtain ⟨hstate, herror⟩ := (spares x).elaborateDecl hp 0 d cfg s
    rcases hrun : elaborateDecl p.env 0 d cfg s with ⟨r, s₁⟩
    rw [hrun] at hstate herror
    cases r with
    | ok made =>
      exact ⟨hstate.trans (.of_eq rfl), (inherited_isSome x).decl ⟨cfg, s, s₁, hrun⟩ hp⟩
    | error stop =>
      cases stop with
      | crashed => exact ⟨hstate.trans (.of_eq rfl), hp⟩
      | failed e =>
        obtain ⟨hds, hin, hout⟩ := poison_run (declNames p.env d) p.env (report e s₁).2
        refine ⟨(hstate.trans (.report (herror e rfl) s₁)).trans (.of_eq hds), ?_⟩
        by_cases hx : x ∈ declNames p.env d
        · obtain ⟨σ, hσ⟩ := hin x hx
          exact Option.isSome_iff_exists.mpr ⟨_, hσ⟩
        · exact (congrArg Option.isSome (hout x hx)).trans hp

theorem steps_spared (ds : Program) {p : Progress} (hp : (p.env.value? x).isSome = true)
    (s : State) : Spared x s (steps cfg p ds s).2 := by
  induction ds generalizing p s with
  | nil => exact .of_eq rfl
  | cons d ds ih =>
    obtain ⟨hfirst, hbound⟩ : Spared x s (step cfg p d s).2 ∧ _ := step_spared hp d s
    rw [steps_cons]
    exact hfirst.trans (ih hbound _)

/-- A pattern cannot test what is bound to an ordinary value. -/
theorem elaboratePattern_con_value {σ : Scheme} (hx : env.value? x = some { scheme := σ })
    (level : Int) (pos : Pos) (arg : Option Source.Pattern) (vars : PatternVars) (s : State) :
    elaboratePattern env level (.con pos x arg) vars cfg s =
      (.error (.failed ((Problem.unboundConstructor x).diagnostic .error pos)), s) := by
  have hcon : constructor env pos x = fail pos (.unboundConstructor x) := by
    unfold constructor
    rw [hx]
    rfl
  cases arg with
  | none | some arg =>
    unfold elaboratePattern
    rw [hcon]
    rfl

/-- A declaration `d` of a program fails.  Of the diagnostics `ds` of all that follows it, none says
that a variable `x` among the names of `d` is not in scope.  But `x` is bound to an ordinary value,
whatever `d` would have bound it to, so a pattern that tests `x` after `d` is refused. -/
theorem failed_names_bound (cfg : Config) (program before later : Program) (d : Decl) (env : Env)
    (s s₁ s₂ : State) (p : Progress) (e : Diagnostic) (x : String)
    (hprogram : program = before ++ d :: later)
    (hbefore : steps cfg { env := env.scope } before s.reset = (p, s₁))
    (hrunning : s₁.isStopped cfg = false)
    (hfails : elaborateDecl p.env 0 d cfg s₁ = (.error (.failed e), s₂))
    (hx : x ∈ declNames p.env d) :
    ∃ q s₃ ds, step cfg p d s₁ = (q, s₃) ∧
      (elaborateProgram cfg program env s).1.diagnostics.Perm (s₃.diagnostics ++ ds) ∧
      (∀ g ∈ ds, ¬ g.Misses x) ∧
      ∀ level pos arg vars s', elaboratePattern q.env level (.con pos x arg) vars cfg s' =
        (.error (.failed ((Problem.unboundConstructor x).diagnostic .error pos)), s') := by
  have hstep : step cfg p d s₁ = _ := step_run p d s₁
  rw [hrunning, hfails] at hstep
  obtain ⟨-, hin, -⟩ := poison_run (declNames p.env d) p.env (report e s₂).2
  obtain ⟨σ, hσ⟩ := hin x hx
  rcases hnext : step cfg p d s₁ with ⟨q, s₃⟩
  rw [hnext] at hstep
  have hq : q.env.value? x = some { scheme := σ } :=
    (congrArg (fun r => r.1.env.value? x) hstep).trans hσ
  have hbound : (q.env.value? x).isSome = true := Option.isSome_iff_exists.mpr ⟨_, hq⟩
  obtain ⟨ds, hds, hspared⟩ : Spared x s₃ (steps cfg q later s₃).2 := steps_spared later hbound s₃
  have hall : steps cfg { env := env.scope } program s.reset = steps cfg q later s₃ := by
    rw [hprogram, steps_append, hbefore, steps_cons, hnext]
  refine ⟨q, s₃, ds, rfl, ?_, hspared, elaboratePattern_con_value hq⟩
  rw [← hds, ← hall]
  exact sort_perm _

/-- `datatype t = C | D of u` -/
def undeclaredArgument : Decl :=
  let p := Pos.none
  .datatypes p [⟨p, [], "t", [⟨p, "C", none⟩, ⟨p, "D", some (.con p "u" [])⟩]⟩]

/-- `val f = fn C => 1` -/
def testsConstructor : Decl :=
  let p := Pos.none
  .val p false (.var p "f") (.fn p [⟨p, .con p "C" none, none, .literal p ⟨.int, "1"⟩⟩])

theorem undeclaredArgument_run :
    "C" ∈ declNames (Env.initial {}).1.scope undeclaredArgument ∧
      (elaborateDecl (Env.initial {}).1.scope 0 undeclaredArgument {} preludeState.reset).1.map
          (fun _ => ()) =
        .error (.failed ⟨.unboundType, .error, .none, "Unbound type constructor u"⟩) ∧
      (steps {} { env := (Env.initial {}).1.scope } [undeclaredArgument, testsConstructor]
        preludeState.reset).2.diagnostics =
        [⟨.unboundType, .error, .none, "Unbound type constructor u"⟩,
          ⟨.unboundIdentifier, .error, .none, "Unbound constructor C"⟩] := by
  decide +kernel

theorem failed_names_bound_C :
    ∃ s₂ e, elaborateDecl (Env.initial {}).1.scope 0 undeclaredArgument {} preludeState.reset =
        (.error (.failed e), s₂) ∧
      "C" ∈ declNames (Env.initial {}).1.scope undeclaredArgument ∧
      ∃ q s₃ ds, step {} { env := (Env.initial {}).1.scope } undeclaredArgument preludeState.reset =
          (q, s₃) ∧
        (elaborateProgram {} [undeclaredArgument, testsConstructor] (Env.initial {}).1
          preludeState).1.diagnostics.Perm (s₃.diagnostics ++ ds) ∧
        (∀ g ∈ ds, ¬ g.Misses "C") ∧
        ∀ level pos arg vars s', elaboratePattern q.env level (.con pos "C" arg) vars {} s' =
          (.error (.failed ((Problem.unboundConstructor "C").diagnostic .error pos)), s') := by
  obtain ⟨hname, hfails, -⟩ := undeclaredArgument_run
  rcases hrun : elaborateDecl (Env.initial {}).1.scope 0 undeclaredArgument {}
    preludeState.reset with ⟨r, s₂⟩
  rw [hrun] at hfails
  rcases r with (e | _) | made
  · exact ⟨s₂, e, rfl, hname, failed_names_bound {} [undeclaredArgument, testsConstructor] []
      [testsConstructor] undeclaredArgument (Env.initial {}).1 preludeState preludeState.reset s₂
      { env := (Env.initial {}).1.scope } e "C" rfl rfl rfl hrun hname⟩
  · cases hfails
  · cases hfails

/-- The constructor of the failed declaration is called unbound where a pattern tests it. -/
theorem constructor_of_failed_unbound :
    "C" ∈ declNames (Env.initial {}).1.scope undeclaredArgument ∧
      (steps {} { env := (Env.initial {}).1.scope } [undeclaredArgument, testsConstructor]
        preludeState.reset).2.diagnostics =
        [⟨.unboundType, .error, .none, "Unbound type constructor u"⟩,
          ⟨.unboundIdentifier, .error, .none, "Unbound constructor C"⟩] :=
  ⟨undeclaredArgument_run.1, undeclaredArgument_run.2.2⟩

end Elaborate

end Typecase
