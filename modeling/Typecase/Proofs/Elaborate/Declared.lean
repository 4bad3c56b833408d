import Typecase.Proofs.Dependency.Components
import Typecase.Proofs.Elaborate.Events
import Typecase.Proofs.Elaborate.Steady
import Typecase.Proofs.Source.Nested
set_option autoImplicit false

/-!
# The datatypes and exceptions that a program declares

At every point of a program, the constructors in scope belong to the datatypes that were declared
so far, and so do the constructors that its patterns test; the exceptions in scope were introduced
so far.  Every declaration of a datatype in the text of the program is elaborated at most once, so
the names of these datatypes are, up to order, among those of the text.  The exceptions are
numbered one after the other.
-/

namespace Typecase

namespace Typed

/-! ## The tests of a typed program -/

mutual

/-- The constructors that the patterns of an expression test, with the types at which they test
them. -/
def Expr.conTests : Expr → List (Ty × Con)
  | .var _ _ _ | .literal _ _ | .selector _ _ => []
  | .app _ f a => f.conTests ++ a.conTests
  | .fn _ _ b => b.conTests
  | .case _ e rs _ => e.conTests ++ rulesTests rs
  | .letIn _ ds e => declsTests ds ++ e.conTests
  | .tuple _ es | .seq _ es => exprsTests es
  | .record _ fs => fieldsTests fs
  | .raise _ e => e.conTests
  | .handle _ e rs _ => e.conTests ++ rulesTests rs

/-- The tests of several expressions. -/
def exprsTests : List Expr → List (Ty × Con)
  | [] => []
  | e :: es => e.conTests ++ exprsTests es

def fieldsTests : List (String × Expr) → List (Ty × Con)
  | [] => []
  | (_, e) :: fs => e.conTests ++ fieldsTests fs

def rulesTests : List Rule → List (Ty × Con)
  | [] => []
  | ⟨p, none, e⟩ :: rs => p.conTests ++ (e.conTests ++ rulesTests rs)
  | ⟨p, some g, e⟩ :: rs => p.conTests ++ (g.conTests ++ (e.conTests ++ rulesTests rs))

/-- The tests of a declaration. -/
def Decl.conTests : Decl → List (Ty × Con)
  | .val _ p e _ _ => p.conTests ++ e.conTests
  | .functions _ bs => bindingsTests bs
  | .datatypes _ _ | .exceptions _ _ => []
  | .localIn _ ds body => declsTests ds ++ declsTests body

/-- The tests of several declarations. -/
def declsTests : List Decl → List (Ty × Con)
  | [] => []
  | d :: ds => d.conTests ++ declsTests ds

/-- The tests of the functions of a group. -/
def bindingsTests : List FunBinding → List (Ty × Con)
  | [] => []
  | ⟨_, _, e⟩ :: bs => e.conTests ++ bindingsTests bs

end

theorem declsTests_append (ds ds' : List Decl) :
    declsTests (ds ++ ds') = declsTests ds ++ declsTests ds' := by
  induction ds with
  | nil => rfl
  | cons d ds ih => rw [List.cons_append, declsTests, declsTests, ih, List.append_assoc]

end Typed

/-! ## What is known of an environment -/

/-- The datatypes that were declared and the exceptions that were introduced. -/
structure World where
  datatypes : List Datatype
  exceptions : List Con

namespace World

variable {W W₁ W₂ : World} {ds ds' : List Datatype} {es es' : List Con}

instance : LE World where
  le W W₁ := W.datatypes ⊆ W₁.datatypes ∧ W.exceptions ⊆ W₁.exceptions

/-- With more datatypes and exceptions. -/
def add (W : World) (ds : List Datatype) (es : List Con) : World :=
  ⟨W.datatypes ++ ds, W.exceptions ++ es⟩

theorem le_add : W ≤ W.add ds es := ⟨List.subset_append_left _ _, List.subset_append_left _ _⟩

theorem le_trans (h : W ≤ W₁) (h' : W₁ ≤ W₂) : W ≤ W₂ :=
  ⟨List.Subset.trans h.1 h'.1, List.Subset.trans h.2 h'.2⟩

theorem add_nil : W.add [] [] = W := by
  simp only [add, List.append_nil]

theorem add_add : (W.add ds es).add ds' es' = W.add (ds ++ ds') (es ++ es') := by
  simp only [add, List.append_assoc]

end World

/-- What is followed: whether constructors belong to declared datatypes, and whether the standard
names are those of the standard constructors. -/
structure Watch where
  tracked : Prop
  strict : Prop
  tracked_of_strict : strict → tracked

/-- All exceptions in scope, hidden ones included, are among `E`. -/
def Env.Knows (E : List Con) (env : Env) : Prop :=
  env.All (fun _ v => ∀ con, v.status = .exception con → con ∈ E) fun _ _ => True

/-- The constructors and exceptions in scope are those of `W`. -/
structure Env.Known (w : Watch) (W : World) (env : Env) : Prop where
  registered : w.tracked → env.Registered w.strict W.datatypes
  exceptions : env.Knows W.exceptions

namespace Env

variable {w : Watch} {W W₁ : World} {env other : Env} {name : String}

theorem Known.mono (h : env.Known w W) (hle : W ≤ W₁) : env.Known w W₁ :=
  ⟨fun htracked => (h.registered htracked).mono hle.1,
    h.exceptions.mono (fun _ _ hv con hcon => hle.2 (hv con hcon)) fun _ _ ht => ht⟩

theorem Known.scope (h : env.Known w W) : env.scope.Known w W :=
  ⟨fun htracked => (h.registered htracked).scope, h.exceptions.scope⟩

theorem Known.bind (h : env.Known w W) {σ : Scheme}
    (hname : w.strict → standard.lookup name = none) : (env.bind name σ).Known w W :=
  ⟨fun htracked => (h.registered htracked).bind hname, h.exceptions.bind nofun⟩

theorem Known.bindValue (h : env.Known w W) {v : ValueEntry}
    (hv : w.tracked → v.Registered W.datatypes)
    (hcon : ∀ con, v.status = .exception con → con ∈ W.exceptions)
    (hname : w.strict → standard.lookup name = none) : (env.bindValue name v).Known w W := by
  refine ⟨fun htracked => (h.registered htracked).bindValue (hv htracked) ?_,
    h.exceptions.bindValue hcon⟩
  intro hstrict t ht
  rw [hname hstrict] at ht
  cases ht

theorem Known.bindType (h : env.Known w W) {t : TypeEntry}
    (ht : w.tracked → name = "exn" → ∀ d, t.datatype? = some d → d.isOpen = true) :
    (env.bindType name t).Known w W :=
  ⟨fun htracked => (h.registered htracked).bindType (ht htracked), h.exceptions.bindType trivial⟩

theorem Known.adopt (h : env.Known w W) (h' : other.Known w W) : (env.adopt other).Known w W :=
  ⟨fun htracked => (h.registered htracked).adopt (h'.registered htracked),
    h.exceptions.adopt h'.exceptions⟩

theorem Known.foldl {α : Type} {f : Env → α → Env} {as : List α}
    (hf : ∀ a ∈ as, ∀ env, env.Known w W → (f env a).Known w W) (h : env.Known w W) :
    (as.foldl f env).Known w W :=
  List.foldlRecOn as f h fun env henv a ha => hf a ha env henv

theorem Known.not_standard (h : env.Known w W) (hname : env.isConstructor name = false)
    (hstrict : w.strict) : standard.lookup name = none :=
  (h.registered (w.tracked_of_strict hstrict)).not_standard hname hstrict

end Env

namespace Elaborate

open Source

variable {α β : Type} {cfg : Config} {w : Watch} {W W₁ : World} {env : Env} {level : Int}
  {pos : Pos} {ns ns' : List String}

/-! ## Runs that declare datatypes and introduce exceptions -/

/-- From `s` to `s'` the exceptions `made` are introduced, with the next numbers. -/
def Continued (s : State) (made : List Con) (s' : State) : Prop :=
  made.map (·.tag) = List.range' (s.exceptions + 1) made.length ∧
    s'.exceptions = s.exceptions + made.length

theorem Continued.append {s s' s'' : State} {made made' : List Con} (h : Continued s made s')
    (h' : Continued s' made' s'') : Continued s (made ++ made') s'' := by
  obtain ⟨htags, hcounted⟩ := h
  obtain ⟨htags', hcounted'⟩ := h'
  have hstart : s.exceptions + 1 + 1 * made.length = s'.exceptions + 1 := by omega
  refine ⟨?_, ?_⟩
  · rw [List.map_append, List.length_append, htags, htags', ← List.range'_append, hstart]
  · rw [List.length_append]
    omega

/-- In a run of `m` with certain events, datatypes are declared whose names are among `ns`, and
exceptions are introduced.  With those of `W`, they account for all constructors and exceptions in
scope at the points, and the result has the property `Q`. -/
def Declares (cfg : Config) (ns : List String) (w : Watch) (W : World) (m : ElaborateM α)
    (events : State → List Event) (Q : World → α → Prop) : Prop :=
  ∀ s, ∃ R', (R'.map (·.name)).Subperm ns ∧ Continued s (exceptionsAmong (events s)) (m cfg s).2 ∧
    (∀ env ∈ pointsAmong (events s), env.Known w (W.add R' (exceptionsAmong (events s)))) ∧
    ∀ a s', m cfg s = (.ok a, s') → Q (W.add R' (exceptionsAmong (events s))) a

/-- Runs of `m` introduce no exceptions, and lead to results with the property `P`. -/
structure Plain (cfg : Config) (m : ElaborateM α) (P : α → Prop) : Prop where
  steady : Steady cfg m
  yields : Yields cfg m P

section Plain

variable {m : ElaborateM α} {k : α → ElaborateM β} {P : α → Prop} {P' : β → Prop}

theorem Plain.pure {a : α} (ha : P a) : Plain cfg (pure a) P := ⟨.pure _, .pure ha⟩

theorem Plain.fail {p : Problem} : Plain cfg (fail pos p : ElaborateM α) P := ⟨.fail, .fail⟩

theorem Plain.bind (hm : Plain cfg m P) (hk : ∀ a, P a → Plain cfg (k a) P') :
    Plain cfg (m >>= k) P' := by
  refine ⟨fun s => ?_, .bind hm.yields fun a ha => (hk a ha).yields⟩
  have hfirst := hm.steady s
  rw [bind_run]
  rcases hrun : m cfg s with ⟨r, s₁⟩
  rw [hrun] at hfirst
  cases r with
  | error e => exact hfirst
  | ok a => exact ((hk a (hm.yields s a s₁ hrun)).steady s₁).trans hfirst

/-- A computation whose result does not matter. -/
theorem Plain.then (hm : Steady cfg m) (hk : ∀ a, Plain cfg (k a) P') : Plain cfg (m >>= k) P' :=
  ⟨.bind hm fun a => (hk a).steady, .then fun a => (hk a).yields⟩

end Plain

section Declares

variable {m : ElaborateM α} {k : α → ElaborateM β} {v : State → List Event}
  {v' : α → State → List Event} {P : α → Prop} {Q : World → α → Prop} {Q' : World → β → Prop}

theorem Declares.plain (hm : Plain cfg m (Q W)) : Declares cfg ns w W m (fun _ => []) Q := by
  intro s
  refine ⟨[], List.nil_subperm, ⟨rfl, hm.steady s⟩, nofun, ?_⟩
  rw [exceptionsAmong_nil, World.add_nil]
  exact hm.yields s

theorem Declares.names (h : Declares cfg ns w W m v Q) (hns : ns.Subperm ns') :
    Declares cfg ns' w W m v Q := by
  intro s
  obtain ⟨R', hnames, hrest⟩ := h s
  exact ⟨R', hnames.trans hns, hrest⟩

theorem Declares.here (henv : env.Known w W) (h : Declares cfg ns w W m v Q) :
    Declares cfg ns w W m (fun s => .point env :: v s) Q := by
  intro s
  obtain ⟨R', hnames, hcontinued, hpoints, hresult⟩ := h s
  exact ⟨R', hnames, hcontinued, List.forall_mem_cons.mpr ⟨henv.mono World.le_add, hpoints⟩, hresult⟩

/-- One computation after another.  What the second one brings comes on top of what the first one
brings. -/
theorem Declares.bind (hm : Declares cfg ns w W m v Q)
    (hk : ∀ a W₁, W ≤ W₁ → Q W₁ a → Declares cfg ns' w W₁ (k a) (v' a) Q') :
    Declares cfg (ns ++ ns') w W (m >>= k) (fun s => v s ++ after cfg m s v') Q' := by
  intro s
  obtain ⟨R', hnames, hcontinued, hpoints, hresult⟩ := hm s
  simp only [bind_run, after, pointsAmong_append, exceptionsAmong_append]
  rcases hrun : m cfg s with ⟨r, s₁⟩
  rw [hrun] at hcontinued
  cases r with
  | error e =>
    simp only [pointsAmong_nil, exceptionsAmong_nil, List.append_nil]
    refine ⟨R', hnames.trans (List.sublist_append_left ns ns').subperm, hcontinued, hpoints, ?_⟩
    rintro _ _ ⟨⟩
  | ok a =>
    obtain ⟨R'', hnames', hcontinued', hpoints', hresult'⟩ :=
      hk a _ World.le_add (hresult a s₁ hrun) s₁
    rw [World.add_add] at hpoints' hresult'
    refine ⟨R' ++ R'', ?_, hcontinued.append hcontinued', ?_, hresult'⟩
    · rw [List.map_append]
      exact hnames.append hnames'
    · refine List.forall_mem_append.mpr ⟨fun env henv => ?_, hpoints'⟩
      rw [← World.add_add]
      exact (hpoints env henv).mono World.le_add

/-- A first computation that brings nothing. -/
theorem Declares.first (hm : Plain cfg m P) (hk : ∀ a, P a → Declares cfg ns w W (k a) (v' a) Q') :
    Declares cfg ns w W (m >>= k) (fun s => after cfg m s v') Q' := by
  intro s
  have hsteady := hm.steady s
  simp only [bind_run, after]
  rcases hrun : m cfg s with ⟨r, s₁⟩
  rw [hrun] at hsteady
  cases r with
  | error e =>
    refine ⟨[], List.nil_subperm, ⟨rfl, hsteady⟩, List.forall_mem_nil _, ?_⟩
    rintro _ _ ⟨⟩
  | ok a =>
    obtain ⟨R', hnames, hcontinued, hrest⟩ := hk a (hm.yields s a s₁ hrun) s₁
    refine ⟨R', hnames, ?_, hrest⟩
    unfold Continued at hcontinued ⊢
    rwa [hsteady] at hcontinued

/-- A first computation that brings nothing and whose result does not matter. -/
theorem Declares.after (hm : Steady cfg m) (hk : ∀ a, Declares cfg ns w W (k a) (v' a) Q') :
    Declares cfg ns w W (m >>= k) (fun s => after cfg m s v') Q' :=
  .first (P := fun _ => True) ⟨hm, fun _ _ _ _ => trivial⟩ fun a _ => hk a

/-- A last computation that brings nothing. -/
theorem Declares.last (hm : Declares cfg ns w W m v Q)
    (hk : ∀ a W₁, W ≤ W₁ → Q W₁ a → Plain cfg (k a) (Q' W₁)) :
    Declares cfg ns w W (m >>= k) v Q' := by
  intro s
  obtain ⟨R', hnames, hcontinued, hpoints, hresult⟩ := hm s
  refine ⟨R', hnames, ?_⟩
  simp only [bind_run]
  rcases hrun : m cfg s with ⟨r, s₁⟩
  rw [hrun] at hcontinued
  cases r with
  | error e => exact ⟨hcontinued, hpoints, nofun⟩
  | ok a =>
    have hlast := hk a _ World.le_add (hresult a s₁ hrun)
    exact ⟨⟨hcontinued.1, (hlast.steady s₁).trans hcontinued.2⟩, hpoints, hlast.yields s₁⟩

theorem Declares.fail {p : Problem} :
    Declares cfg ns w W (fail pos p : ElaborateM α) (fun _ => []) Q :=
  .plain .fail

theorem Declares.fail_bind {p : Problem} :
    Declares cfg ns w W ((Elaborate.fail pos p : ElaborateM α) >>= k) (fun _ => []) Q' :=
  .plain ⟨.fail_bind, .fail_bind⟩

theorem Declares.ite {c : Prop} [Decidable c] {m' : ElaborateM α} {v' : State → List Event}
    (h : Declares cfg ns w W m v Q) (h' : Declares cfg ns w W m' v' Q) :
    Declares cfg ns w W (if c then m else m') (fun s => if c then v s else v' s) Q := by
  split
  · exact h
  · exact h'

theorem Declares.withinValue (h : Declares cfg ns w W m v Q) :
    Declares cfg ns w W (withinValue level m) (fun s => v (s.enterValue level)) Q := by
  intro s
  obtain ⟨R', hnames, hcontinued, hpoints, hresult⟩ := h (s.enterValue level)
  have henter : (s.enterValue level).exceptions = s.exceptions := by
    unfold State.enterValue
    split <;> rfl
  unfold Continued at hcontinued
  rw [henter] at hcontinued
  refine ⟨R', hnames, hcontinued, hpoints, ?_⟩
  intro a s' hrun
  obtain ⟨hok, -⟩ := Prod.mk.inj hrun
  exact hresult a _ (Prod.ext hok rfl)

end Declares

/-! ## Forms of expressions -/

/-- All tests in `xs` are tests of constructors of declared datatypes. -/
def AllTested (w : Watch) (xs : List (Ty × Con)) (W : World) : Prop :=
  w.strict → ∀ x ∈ xs, Tested W.datatypes x

theorem AllTested.mono {xs : List (Ty × Con)} (h : AllTested w xs W) (hle : W ≤ W₁) :
    AllTested w xs W₁ :=
  fun hstrict x hx => (h hstrict x hx).mono hle.1

theorem allTested_nil : AllTested w [] W := fun _ _ hx => absurd hx List.not_mem_nil

theorem AllTested.append {xs ys : List (Ty × Con)} (h : AllTested w xs W) (h' : AllTested w ys W) :
    AllTested w (xs ++ ys) W :=
  fun hstrict => List.forall_mem_append.mpr ⟨h hstrict, h' hstrict⟩

/-- All tests of an expression are tests of constructors of declared datatypes. -/
def ExprTested (w : Watch) (W : World) (e : Typed.Expr) : Prop := AllTested w e.conTests W

theorem exprsTests_tested {es : List Typed.Expr} (h : ∀ e ∈ es, ExprTested w W e) :
    AllTested w (Typed.exprsTests es) W := by
  induction es with
  | nil => exact allTested_nil
  | cons e es ih =>
    rw [List.forall_mem_cons] at h
    exact h.1.append (ih h.2)

theorem fieldsTests_tested {fs : List (String × Typed.Expr)} (h : ∀ f ∈ fs, ExprTested w W f.2) :
    AllTested w (Typed.fieldsTests fs) W := by
  induction fs with
  | nil => exact allTested_nil
  | cons f fs ih =>
    rw [List.forall_mem_cons] at h
    exact h.1.append (ih h.2)

theorem plain_identifier (name : String) :
    Plain cfg (identifier env level pos name) (ExprTested w W) := by
  refine ⟨stepwise_steady.identifier trivial _, ?_⟩
  unfold identifier
  cases env.value? name with
  | none => exact .fail
  | some entry => exact .then fun t => .pure allTested_nil

theorem plain_application {funcPos argPos : Pos} {func arg : Typed.Expr}
    (hfunc : ExprTested w W func) (harg : ExprTested w W arg) :
    Plain cfg (application level pos funcPos argPos func arg) (ExprTested w W) := by
  refine ⟨stepwise_steady.application func arg, ?_⟩
  unfold application
  refine .then fun t => .then fun r => ?_
  cases r with
  | ok _ => exact .pure (hfunc.append harg)
  | error e => exact .then fun s => .then fun curried => .fail

theorem plain_function {param result : Ty} {rules : List Typed.Rule}
    (hrules : AllTested w (Typed.rulesTests rules) W) :
    Plain cfg (function pos param result rules) (ExprTested w W) := by
  refine ⟨steady_function param result rules, ?_⟩
  unfold function
  exact .then fun m => .then fun name => .then fun t => .pure (allTested_nil.append hrules)

/-- The standard constructors of truth values are tested at the type that programs expect. -/
theorem plain_truthCon (henv : env.Known w W) {name : String}
    (hname : standard.lookup name = some "bool") :
    Plain cfg (constructor env pos name) fun r => AllTested w [(Ty.bool, r.1)] W := by
  refine ⟨stepwise_steady.constructor name, ?_⟩
  intro s r s' hrun hstrict
  obtain ⟨v, hv, hcon, -⟩ := yields_constructor name s r s' hrun
  obtain ⟨hvR, hstandard⟩ := (henv.registered (w.tracked_of_strict hstrict)).entries.value? hv
  exact List.forall_mem_singleton.mpr (tested_standard hcon hvR hname (hstandard hstrict))

theorem declares_conditional (henv : env.Known w W) {test whenTrue whenFalse : Part}
    {first branches : State → List Event}
    (htest : Declares cfg ns w W test.elaborate first (ExprTested w))
    (hbranches : ∀ W₁, W ≤ W₁ → Declares cfg ns' w W₁ (do
      let a ← whenTrue.elaborate
      let b ← whenFalse.elaborate
      return (a, b)) branches fun W r => ExprTested w W r.1 ∧ ExprTested w W r.2) :
    Declares cfg (ns ++ ns') w W (conditional env pos test whenTrue whenFalse)
      (eventsConditional cfg env pos test first branches) (ExprTested w) := by
  unfold conditional eventsConditional
  refine .first (plain_truthCon henv rfl) ?_
  rintro ⟨trueCon, _⟩ htrue
  refine .first (plain_truthCon henv rfl) ?_
  rintro ⟨falseCon, _⟩ hfalse
  refine .bind htest ?_
  intro c W₁ hle hc
  refine .after (stepwise_steady.unify _ _) fun _ => ?_
  have hrest : Declares cfg ns' w W₁ ((do
      let a ← whenTrue.elaborate
      let b ← whenFalse.elaborate
      return (a, b)) >>= fun r => do
        unify whenFalse.pos r.1.type r.2.type
        let rules : List Typed.Rule := [
          ⟨.con ⟨whenTrue.pos, Ty.bool⟩ trueCon none, none, r.1⟩,
          ⟨.con ⟨whenFalse.pos, Ty.bool⟩ falseCon none, none, r.2⟩]
        let m ← compileRules .rules pos rules Ty.bool
        return .case ⟨pos, r.1.type⟩ c rules m) branches (ExprTested w) := by
    refine .last (hbranches W₁ hle) ?_
    rintro ⟨a, b⟩ W₂ hle₂ ⟨ha, hb⟩
    refine .then (stepwise_steady.unify _ _) fun _ =>
      .then (stepwise_steady.compileMatch _ _ _) fun m => .pure ?_
    have hle' := World.le_trans hle hle₂
    exact (hc.mono hle₂).append ((htrue.mono hle').append (ha.append
      ((hfalse.mono hle').append (hb.append allTested_nil))))
  simpa only [bind_assoc, pure_bind] using hrest

theorem listOf_tested {nil cons : Con} {list pair func : Ty} {es : List Typed.Expr}
    (h : ∀ e ∈ es, ExprTested w W e) : ExprTested w W (listOf pos nil cons list pair func es) := by
  induction es with
  | nil => exact allTested_nil
  | cons e es ih =>
    rw [List.forall_mem_cons] at h
    exact allTested_nil.append (h.1.append ((ih h.2).append allTested_nil))

theorem declares_listExpr {elements : Ty → ElaborateM (List Typed.Expr)}
    {events : Ty → State → List Event}
    (helements : ∀ elem, Declares cfg ns w W (elements elem) (events elem) fun W es =>
      ∀ e ∈ es, ExprTested w W e) :
    Declares cfg ns w W (listExpr env level pos elements) (eventsList cfg env level pos events)
      (ExprTested w) := by
  unfold listExpr eventsList
  refine .after (stepwise_steady.constructor "nil") fun _ =>
    .after (stepwise_steady.constructor "::") fun _ => ?_
  refine .after .freshType fun elem => .after (.liftStore _) fun list => ?_
  refine .last (helements elem) ?_
  intro es W₁ _ hes
  exact .then (.liftStore _) fun pair => .then (.liftStore _) fun func => .pure (listOf_tested hes)

/-! ## Forms of declarations -/

/-- What can be read off each result makes up a list that is known beforehand. -/
theorem Yields.map_mapM {γ : Type} {f : α → ElaborateM β} {g : β → γ} {h : α → γ}
    (hf : ∀ x, Yields cfg (f x) fun y => g y = h x) (xs : List α) :
    Yields cfg (xs.mapM f) fun ys => ys.map g = xs.map h := by
  induction xs with
  | nil =>
    rw [List.mapM_nil]
    exact .pure rfl
  | cons x xs ih =>
    rw [List.mapM_cons]
    exact .bind (hf x) fun y hy => .bind ih fun ys hys => .pure (congrArg₂ List.cons hy hys)

/-- A computation that collects the variables of patterns, from the start. -/
theorem plain_patterns {m : PatternM α} {P : α → PatternVars → Prop} (henv : env.Known w W)
    (hsteady : Steady cfg (m.run []))
    (hm : (w.strict → env.Registered w.strict W.datatypes) → Collects cfg env m P) :
    Plain cfg (m.run []) fun r => P r.1 r.2 ∧ (bindVars env.scope r.2).Known w W ∧
      (w.strict → ∀ v ∈ r.2, standard.lookup v.1 = none) := by
  refine ⟨hsteady, ?_⟩
  intro s r s' hr
  obtain ⟨new, hvars, hnew, hP⟩ :=
    hm (fun hstrict => henv.registered (w.tracked_of_strict hstrict)) [] s r s' hr
  rw [List.nil_append] at hvars
  rw [← hvars] at hnew hP
  have hnames : w.strict → ∀ v ∈ r.2, standard.lookup v.1 = none :=
    fun hstrict v hv => henv.not_standard (hnew.1 v hv) hstrict
  exact ⟨hP, henv.scope.foldl fun v hv env h => h.bind fun hstrict => hnames hstrict v hv, hnames⟩

theorem plain_pattern (henv : env.Known w W) (pattern : Source.Pattern) :
    Plain cfg ((elaboratePattern env level pattern).run []) fun r =>
      PatternMade w.strict W.datatypes (pattern.names env.isConstructor) r.1 r.2 ∧
        (bindVars env.scope r.2).Known w W ∧ (w.strict → ∀ v ∈ r.2, standard.lookup v.1 = none) :=
  plain_patterns henv (stepwise_steady.elaboratePattern trivial pattern [])
    fun hR => collects_elaboratePattern hR pattern

/-- What a declaration comes to: an environment whose constructors and exceptions are those of
`W`, and tests of such constructors. -/
def Made (w : Watch) (W : World) (made : Elaborated) : Prop :=
  made.env.Known w W ∧ AllTested w (Typed.declsTests made.decl.toList) W

theorem yields_bindings {isValue : Bool} (vars : PatternVars) :
    Yields cfg (vars.mapM fun v => do
      return (⟨v.1, ← bindScheme env pos level v.2 isValue⟩ : Binding)) fun bs =>
        bs.map (·.name) = vars.map (·.1) := by
  refine .map_mapM (fun v => ?_) vars
  exact .then fun σ => .pure rfl

theorem plain_valueDecl (henv : env.Known w W) (pattern : Source.Pattern) (isValue : Bool)
    {expr : Typed.Expr} (hexpr : ExprTested w W expr) :
    Plain cfg (valueDecl env level pos pattern isValue expr) (Made w W) := by
  refine ⟨stepwise_steady.valueDecl trivial pattern isValue expr, ?_⟩
  unfold valueDecl
  refine .bind (plain_pattern henv pattern).yields ?_
  rintro ⟨p, vars⟩ ⟨hp, -, hvars⟩
  refine .then fun _ => .then fun m => ?_
  refine .bind (yields_bindings vars) fun bindings hbindings => ?_
  refine .then fun _ => .pure ⟨henv.foldl fun b hb env h => h.bind fun hstrict => ?_, ?_⟩
  · obtain ⟨v, hv, hname⟩ := List.mem_map.mp (hbindings ▸ List.mem_map_of_mem hb)
    exact hname ▸ hvars hstrict v hv
  · exact AllTested.append (AllTested.append hp.1 hexpr) allTested_nil

theorem recursiveName?_names {pattern : Source.Pattern} {name : String} {annot : Option TypeExpr}
    (h : recursiveName? env pattern = some (name, annot)) :
    env.isConstructor name = false ∧ pattern.names env.isConstructor = [name] := by
  have hcase : ∀ x (a : Option TypeExpr),
      (if env.isConstructor x then none else some (x, a)) = some (name, annot) →
        env.isConstructor name = false ∧ (if env.isConstructor x then [] else [x]) = [name] := by
    intro x a hx
    split at hx
    · cases hx
    · rename_i hnot
      cases hx
      exact ⟨Bool.not_eq_true _ ▸ hnot, if_neg hnot⟩
  unfold recursiveName? at h
  split at h
  · exact hcase _ _ h
  · exact hcase _ _ h
  · cases h

theorem declares_recursiveDecl (henv : env.Known w W) (pattern : Source.Pattern)
    (isFn : Bool) (exprPos : Pos) {expr : Env → ElaborateM Typed.Expr}
    {events : Env → State → List Event}
    (hexpr : ∀ scope, scope.Known w W →
      Declares cfg ns w W (expr scope) (events scope) (ExprTested w)) :
    Declares cfg ns w W (recursiveDecl env level pos pattern isFn exprPos expr)
      (eventsRecursive cfg env level pattern isFn events) (Made w) := by
  unfold recursiveDecl eventsRecursive
  cases hname : recursiveName? env pattern with
  | none => exact .fail
  | some r =>
    obtain ⟨name, annot⟩ := r
    have hnot : w.strict → standard.lookup name = none :=
      henv.not_standard (recursiveName?_names hname).1
    have hlast : ∀ t, Declares cfg ns w W (do
        let fn ← expr (env.bind name (.mono t))
        unify exprPos t fn.type
        let σ ← generalize env pos level t
        let bindings : List Binding := [⟨name, σ⟩]
        traceBindings bindings
        return (⟨some (.functions pos [⟨name, σ, fn⟩]), env.bind name σ, bindings⟩ : Elaborated))
        (events (env.bind name (.mono t))) (Made w) := by
      intro t
      refine .last (hexpr _ (henv.bind hnot)) ?_
      intro fn W₁ hle hfn
      refine .then (stepwise_steady.unify _ _) fun _ =>
        .then (stepwise_steady.generalize _) fun σ =>
        .then (stepwise_steady.traceBindings _) fun _ => .pure ⟨(henv.mono hle).bind hnot, ?_⟩
      exact (AllTested.append hfn allTested_nil).append allTested_nil
    cases isFn with
    | false => exact .fail_bind
    | true =>
      simp only [Bool.not_true, Bool.false_eq_true, if_false, if_true]
      refine .after .freshType fun t => ?_
      cases annot with
      | none => exact hlast t
      | some annot =>
        exact .after (stepwise_steady.elaborateType _ _) fun _ =>
          .after (stepwise_steady.unify _ _) fun _ => hlast t

/-! ## Groups of functions -/

section Group

variable {names : Nat → List String} {tours : List Tour} {members : List Member}

/-- The number of a function leads to its events. -/
def MemberDeclares (cfg : Config) (w : Watch) (names : Nat → List String) (tours : List Tour)
    (i : Nat) (f : Member) : Prop :=
  ∃ tour, tours[i]? = some tour ∧ ∀ env level W, env.Known w W →
    Declares cfg (names i) w W (f.elaborate env level) (tour env level) (ExprTested w)

/-- A function of a component, whose name is no standard name. -/
def Placed (cfg : Config) (w : Watch) (names : Nat → List String) (tours : List Tour) (i : Nat)
    (f : Member) : Prop :=
  MemberDeclares cfg w names tours i f ∧ (w.strict → standard.lookup f.name = none)

theorem declares_members {scope : Env} (hscope : scope.Known w W)
    (component : List (Nat × Member × Ty))
    (hcomponent : ∀ c ∈ component, Placed cfg w names tours c.1 c.2.1) :
    Declares cfg (component.flatMap fun c => names c.1) w W
      (elaborateMembers scope level component) (eventsMembers cfg tours scope level component)
      fun W rs => ∀ r ∈ rs, ExprTested w W r.2.2.2 ∧
        (w.strict → standard.lookup r.2.1.name = none) := by
  induction component generalizing W with
  | nil =>
    unfold elaborateMembers eventsMembers
    rw [List.mapM_nil]
    exact .plain (.pure fun _ hr => absurd hr List.not_mem_nil)
  | cons c component ih =>
    obtain ⟨i, f, t⟩ := c
    rw [List.forall_mem_cons] at hcomponent
    obtain ⟨⟨⟨tour, htour, hf⟩, hname⟩, hrest⟩ := hcomponent
    have hhead : Declares cfg (names i) w W (do
        let fn ← f.elaborate scope (level + 1)
        unify f.pos t fn.type
        return (i, f, t, fn)) (fun s => (tours[i]?).elim [] fun tour => tour scope (level + 1) s)
        fun W r => ExprTested w W r.2.2.2 ∧ (w.strict → standard.lookup r.2.1.name = none) := by
      rw [htour]
      refine .last (hf scope (level + 1) W hscope) ?_
      intro fn W₁ _ hfn
      exact .then (stepwise_steady.unify _ _) fun _ => .pure ⟨hfn, hname⟩
    unfold elaborateMembers eventsMembers
    rw [List.mapM_cons]
    refine .bind hhead ?_
    intro r W₁ hle hr
    refine .last (ih (hscope.mono hle) hrest) ?_
    intro rs W₂ hle₂ hrs
    exact .pure (List.forall_mem_cons.mpr ⟨⟨hr.1.mono hle₂, hr.2⟩, hrs⟩)

theorem yields_generalizeMembers (henv : env.Known w W) (rs : List (Nat × Member × Ty × Typed.Expr))
    (hrs : ∀ r ∈ rs, ExprTested w W r.2.2.2 ∧ (w.strict → standard.lookup r.2.1.name = none)) :
    Yields cfg (generalizeMembers level env rs) fun r =>
      r.1.Known w W ∧ ∀ e ∈ r.2, ExprTested w W e.2.fn := by
  induction rs generalizing env with
  | nil => exact .pure ⟨henv, fun _ he => absurd he List.not_mem_nil⟩
  | cons r rs ih =>
    obtain ⟨i, f, t, fn⟩ := r
    rw [List.forall_mem_cons] at hrs
    obtain ⟨⟨hfn, hname⟩, hrest⟩ := hrs
    unfold generalizeMembers
    refine .then fun σ => .bind (ih (henv.bind hname) hrest) ?_
    rintro ⟨env', done⟩ ⟨henv', hdone⟩
    exact .pure ⟨henv', List.forall_mem_cons.mpr ⟨hfn, hdone⟩⟩

theorem yields_typed (component : List (Nat × Member)) :
    Yields cfg (component.mapM fun (i, f) => do return (i, f, ← freshType (level + 1))) fun typed =>
      typed.map (fun c => (c.1, c.2.1)) = component := by
  conv in _ = component => rw [← List.map_id component]
  refine .map_mapM (fun c => ?_) component
  exact .then fun t => .pure rfl

theorem declares_component (henv : env.Known w W) (component : List (Nat × Member))
    (hcomponent : ∀ c ∈ component, Placed cfg w names tours c.1 c.2) :
    Declares cfg (component.flatMap fun c => names c.1) w W
      (elaborateComponent env level component)
      (fun s => after cfg (component.mapM fun (i, f) => do
        return (i, f, ← freshType (level + 1))) s fun typed s =>
          eventsMembers cfg tours
            (typed.foldl (fun env (_, f, t) => env.bind f.name (.mono t)) env) level typed s)
      fun W r => r.1.Known w W ∧ ∀ e ∈ r.2, ExprTested w W e.2.fn := by
  unfold elaborateComponent
  refine .first ⟨stepwise_steady.mapM fun _ => .bind .freshType fun _ => .pure _,
    yields_typed component⟩ ?_
  intro typed hmap
  have hplaced : ∀ c ∈ typed, Placed cfg w names tours c.1 c.2.1 := by
    intro c hc
    exact hcomponent (c.1, c.2.1) (hmap ▸ List.mem_map_of_mem hc)
  have hnames : component.flatMap (fun c => names c.1) = typed.flatMap fun c => names c.1 := by
    rw [← hmap, List.flatMap_map]
  rw [hnames]
  have hscope : (typed.foldl (fun env (_, f, t) => env.bind f.name (.mono t)) env).Known w W :=
    henv.foldl fun c hc env h => h.bind (hplaced c hc).2
  refine .last (declares_members hscope typed hplaced) ?_
  intro rs W₁ hle hrs
  exact ⟨stepwise_steady.generalizeMembers rs, yields_generalizeMembers (henv.mono hle) rs hrs⟩

theorem filterMap_names_sublist (members : List Member) (names : Nat → List String) (c : List Nat) :
    ((c.filterMap fun i => (members[i]?).map fun f => (i, f)).flatMap fun e => names e.1).Sublist
      (c.flatMap names) := by
  induction c with
  | nil => exact .slnil
  | cons i c ih =>
    rw [List.filterMap_cons, List.flatMap_cons]
    cases members[i]? with
    | none => exact ih.trans (List.sublist_append_right _ _)
    | some f => exact (List.Sublist.refl (names i)).append ih

theorem declares_components (henv : env.Known w W) (components : List (List Nat))
    (hmembers : ∀ i f, members[i]? = some f → Placed cfg w names tours i f) :
    Declares cfg (components.flatten.flatMap names) w W
      (elaborateComponents level members env components)
      (eventsComponents cfg level members tours env components)
      fun W r => r.1.Known w W ∧ ∀ e ∈ r.2, ExprTested w W e.2.fn := by
  induction components generalizing env W with
  | nil =>
    unfold elaborateComponents eventsComponents
    exact .plain (.pure ⟨henv, fun _ he => absurd he List.not_mem_nil⟩)
  | cons c components ih =>
    have hcomponent : ∀ e ∈ c.filterMap (fun i => (members[i]?).map fun f => (i, f)),
        Placed cfg w names tours e.1 e.2 := by
      intro e he
      obtain ⟨i, -, hi⟩ := List.mem_filterMap.mp he
      obtain ⟨f, hf, rfl⟩ := Option.map_eq_some_iff.mp hi
      exact hmembers i f hf
    have hnames := (filterMap_names_sublist members names c).subperm
    unfold elaborateComponents eventsComponents
    rw [List.flatten_cons, List.flatMap_append]
    refine .bind ((declares_component henv _ hcomponent).names hnames) ?_
    rintro ⟨env₁, done⟩ W₁ hle ⟨henv₁, hdone⟩
    refine .last (ih henv₁) ?_
    rintro ⟨env₂, rest⟩ W₂ hle₂ ⟨henv₂, hrest⟩
    refine .pure ⟨henv₂, List.forall_mem_append.mpr ⟨?_, hrest⟩⟩
    exact fun e he => (hdone e he).mono hle₂

end Group

theorem isConstructor_checkNames {ms : List Member} {earlier : List String} :
    Yields cfg (checkNames env earlier ms) fun _ =>
      (ms.map (·.name)).Nodup ∧ (∀ f ∈ ms, f.name ∉ earlier) ∧
        ∀ f ∈ ms, env.isConstructor f.name = false := by
  induction ms generalizing earlier with
  | nil => exact .pure ⟨List.nodup_nil, nofun, nofun⟩
  | cons f ms ih =>
    unfold checkNames
    refine .ite (fun _ => .fail_bind) ?_
    intro hearlier
    refine .ite (fun _ => .fail_bind) ?_
    intro hname s a s' hrun
    obtain ⟨hnodup, hnot, hnames⟩ := ih s a s' hrun
    refine ⟨List.nodup_cons.mpr ⟨?_, hnodup⟩, ?_, ?_⟩
    · intro hmem
      obtain ⟨g, hg, hgf⟩ := List.mem_map.mp hmem
      exact hnot g hg (List.mem_cons.mpr (Or.inl hgf))
    · refine List.forall_mem_cons.mpr ⟨fun hmem => hearlier (List.contains_iff_mem.mpr hmem), ?_⟩
      exact fun g hg hmem => hnot g hg (List.mem_cons_of_mem _ hmem)
    · exact List.forall_mem_cons.mpr ⟨Bool.not_eq_true _ ▸ hname, hnames⟩

theorem declares_functionsDecl (henv : env.Known w W) {members : List Member}
    {tours : List Tour} {names : Nat → List String} {components : List (List Nat)}
    (hmembers : ∀ i f, members[i]? = some f → MemberDeclares cfg w names tours i f)
    (hnames : (members.map (·.name)).Nodup →
      (components.flatten.flatMap names).Subperm ns) :
    Declares cfg ns w W (functionsDecl env level pos members components)
      (eventsGroup cfg env level pos members tours components) (Made w) := by
  unfold functionsDecl eventsGroup
  refine .first ⟨stepwise_steady.checkNames _ _, isConstructor_checkNames⟩ ?_
  rintro _ ⟨hnodup, -, hnot⟩
  refine .after (.trace _ _) fun _ => ?_
  have hplaced : ∀ i f, members[i]? = some f → Placed cfg w names tours i f :=
    fun i f hf => ⟨hmembers i f hf, henv.not_standard (hnot f (List.mem_of_getElem? hf))⟩
  refine .last ((declares_components henv components hplaced).names (hnames hnodup)) ?_
  rintro ⟨env', done⟩ W₁ hle ⟨henv', hdone⟩
  refine .then (stepwise_steady.traceBindings _) fun _ => .pure ⟨henv', ?_⟩
  refine AllTested.append ?_ allTested_nil
  have hall : ∀ b ∈ (List.range members.length).filterMap (fun i => done.lookup i),
      ExprTested w W₁ b.fn := by
    intro b hb
    obtain ⟨i, -, hi⟩ := List.mem_filterMap.mp hb
    obtain ⟨before, rest, rfl, -⟩ := List.lookup_eq_some_iff.mp hi
    exact hdone (i, b) (by simp)
  generalize (List.range members.length).filterMap (fun i => done.lookup i) = bs at hall
  show AllTested w (Typed.bindingsTests bs) W₁
  induction bs with
  | nil => exact allTested_nil
  | cons b bs ih =>
    rw [List.forall_mem_cons] at hall
    obtain ⟨_, _, fn⟩ := b
    exact AllTested.append hall.1 (ih hall.2)

/-! ## Clauses -/

theorem collects_elaborateParams {strict : Prop} {R : List Datatype}
    (henv : strict → env.Registered strict R) (ps : List Source.Pattern) (ts : List Ty) :
    Collects cfg env (elaborateParams env level ps ts) fun ps _ =>
      ∀ p ∈ ps, PatternTested strict R p := by
  induction ps generalizing ts with
  | nil =>
    unfold elaborateParams
    exact .pure fun _ hp => absurd hp List.not_mem_nil
  | cons p ps ih =>
    cases ts with
    | nil =>
      unfold elaborateParams
      exact .pure fun _ hp => absurd hp List.not_mem_nil
    | cons t ts =>
      unfold elaborateParams
      refine .bind (collects_elaboratePattern henv p) fun p' _ hp => ?_
      refine .then fun _ => .bind (ih ts) fun ps' _ hps => ?_
      exact .pure (List.forall_mem_cons.mpr ⟨hp.1, hps⟩)

/-- All tests of a rule are tests of constructors of declared datatypes. -/
def RuleTested (w : Watch) (W : World) (r : Typed.Rule) : Prop :=
  AllTested w (Typed.rulesTests [r]) W

theorem rulesTests_tested {rs : List Typed.Rule} (h : ∀ r ∈ rs, RuleTested w W r) :
    AllTested w (Typed.rulesTests rs) W := by
  induction rs with
  | nil => exact allTested_nil
  | cons r rs ih =>
    rw [List.forall_mem_cons] at h
    obtain ⟨p, guard, e⟩ := r
    have hall := h.1.append (ih h.2)
    cases guard with
    | none | some g => simpa [Typed.rulesTests] using hall

theorem declares_clauseBody (bodyPos pos : Pos) (scrutinee result : Ty)
    {body : ElaborateM Typed.Expr} {events : State → List Event}
    (hbody : Declares cfg ns w W body events (ExprTested w)) {ps : List (Pattern Note)}
    (hps : ∀ p ∈ ps, AllTested w p.conTests W) :
    Declares cfg ns w W (do
      let e ← body
      unify bodyPos result e.type
      match ps with
      | [p] => return (⟨p, none, e⟩ : Typed.Rule)
      | ps => return ⟨.tuple ⟨pos, scrutinee⟩ ps, none, e⟩) events (RuleTested w) := by
  refine .last hbody ?_
  intro e W₁ hle he
  refine .then (stepwise_steady.unify _ _) fun _ => ?_
  have hps₁ : ∀ p ∈ ps, AllTested w p.conTests W₁ :=
    fun p hp => AllTested.mono (hps p hp) hle
  split
  · exact .pure ((hps₁ _ List.mem_cons_self).append (AllTested.append he allTested_nil))
  · refine .pure (AllTested.append ?_ (AllTested.append he allTested_nil))
    exact conTestsList_tested hps₁

theorem declares_functionClause (henv : env.Known w W) {name : String}
    {params : List Ty} {scrutinee result : Ty} {patterns : List Source.Pattern}
    {annot : Option TypeExpr} {bodyPos : Pos} {body : Env → ElaborateM Typed.Expr}
    {events : Env → State → List Event}
    (hbody : ∀ scope, scope.Known w W →
      Declares cfg ns w W (body scope) (events scope) (ExprTested w)) :
    Declares cfg ns w W
      (functionClause env level name params scrutinee result pos patterns annot bodyPos body)
      (eventsClause cfg env level params result pos patterns annot events) (RuleTested w) := by
  unfold functionClause eventsClause
  refine .ite .fail_bind (.first (plain_patterns henv
    (stepwise_steady.elaborateParams trivial patterns params [])
    fun hR => collects_elaborateParams hR patterns params) ?_)
  rintro ⟨ps, vars⟩ ⟨hps, hscope, -⟩
  have hlast := declares_clauseBody bodyPos pos scrutinee result (hbody _ hscope) hps
  cases annot with
  | none => exact hlast
  | some annot =>
    exact .after (stepwise_steady.elaborateType _ _) fun expected =>
      .after (stepwise_steady.unify _ _) fun _ => hlast

theorem yields_curried (params : List (String × Ty)) {body : Typed.Expr}
    (hbody : ExprTested w W body) : Yields cfg (curried pos params body) (ExprTested w W) := by
  induction params with
  | nil => exact .pure hbody
  | cons p params ih =>
    unfold curried
    refine .bind ih ?_
    intro e he
    exact .then fun t => .pure he

theorem declares_curriedFunction {name : String} {arity : Nat}
    {clauses : List Ty → Ty → Ty → ElaborateM (List Typed.Rule)}
    {events : List Ty → Ty → Ty → State → List Event}
    (hclauses : ∀ params scrutinee result, Declares cfg ns w W
      (clauses params scrutinee result) (events params scrutinee result)
      fun W rs => ∀ r ∈ rs, RuleTested w W r) :
    Declares cfg ns w W (curriedFunction level pos name arity clauses)
      (eventsCurried cfg level arity events) (ExprTested w) := by
  unfold curriedFunction eventsCurried
  refine .ite .fail_bind (.after (stepwise_steady.mapM fun _ => .freshType) fun params => ?_)
  refine .after (.liftStore _) fun scrutinee => .after .freshType fun result => ?_
  refine .last (hclauses params scrutinee result) ?_
  intro rules W₁ _ hrules
  refine .then (stepwise_steady.compileMatch _ _ _) fun m =>
    .then (stepwise_steady.mapM fun _ => .bind steady_freshParam fun _ => .pure _) fun named =>
      ⟨stepwise_steady.curried _ _, yields_curried named ?_⟩
  refine AllTested.append ?_ (rulesTests_tested hrules)
  have hvars : ∀ e ∈ named.map (fun x => Typed.Expr.var ⟨pos, x.2⟩ x.1 none),
      ExprTested w W₁ e := List.forall_mem_map.mpr fun _ _ => allTested_nil
  split
  · rename_i e hargs
    exact hvars e (hargs ▸ List.mem_singleton.mpr rfl)
  · exact exprsTests_tested hvars

/-! ## Datatypes and exceptions -/

theorem yields_declareDatatypes (bs : List DatatypeBinding) (earlier : List String) :
    Yields cfg (declareDatatypes earlier bs) fun drafts =>
      drafts.map (·.1) = bs ∧ ∀ e ∈ drafts, e.2.2.name = e.1.name ∧ e.2.2.constructors = [] := by
  induction bs generalizing earlier with
  | nil => exact .pure ⟨rfl, nofun⟩
  | cons b bs ih =>
    unfold declareDatatypes
    refine .ite (fun _ => .fail_bind) fun _ => ?_
    · refine .then fun params => .then fun s => .then fun _ => .bind (ih _) ?_
      rintro rest ⟨hmap, hrest⟩
      refine .pure ⟨by rw [List.map_cons, hmap], List.forall_mem_cons.mpr ⟨⟨rfl, rfl⟩, hrest⟩⟩

theorem yields_declareConstructors {params : LabelMap Var} (cs : List ConBinding)
    (seen : List String) (d : Datatype) :
    Yields cfg (declareConstructors env level params seen d cs) fun r =>
      r.2.name = d.name ∧
        r.2.constructors.map (·.name) = d.constructors.map (·.name) ++ cs.map (·.name) := by
  induction cs generalizing seen d with
  | nil => exact .pure ⟨rfl, (List.append_nil _).symm⟩
  | cons c cs ih =>
    unfold declareConstructors
    refine .ite (fun _ => .fail_bind) fun _ => ?_
    refine .then fun arg => .then fun _ => ?_
    intro s r s' hrun
    obtain ⟨hname, hconstructors⟩ := ih _ _ s r s' hrun
    exact ⟨hname, by rw [hconstructors]; simp [Datatype.add]⟩

theorem yields_completeDatatypes (drafts : List (DatatypeBinding × LabelMap Var × Datatype))
    (seen : List String) (hdrafts : ∀ e ∈ drafts, e.2.2.name = e.1.name ∧ e.2.2.constructors = []) :
    Yields cfg (completeDatatypes env level seen drafts) fun ds =>
      ds.map (·.name) = drafts.map (·.1.name) ∧
        (ds.flatMap fun d => d.constructors.map (·.name)) =
          drafts.flatMap fun e => e.1.constructors.map (·.name) := by
  induction drafts generalizing seen with
  | nil => exact .pure ⟨rfl, rfl⟩
  | cons e drafts ih =>
    obtain ⟨b, params, d⟩ := e
    rw [List.forall_mem_cons] at hdrafts
    obtain ⟨⟨hname, hnone⟩, hrest⟩ := hdrafts
    unfold completeDatatypes
    refine .bind (yields_declareConstructors b.constructors seen d) ?_
    rintro ⟨seen', d'⟩ ⟨hname', hconstructors⟩
    refine .bind (ih seen' hrest) ?_
    rintro ds ⟨hmap, hds⟩
    refine .pure ⟨by rw [List.map_cons, List.map_cons, hmap, hname', hname], ?_⟩
    rw [List.flatMap_cons, List.flatMap_cons, hds, hconstructors, hnone]
    rfl

/-- The constructors of a declared datatype are registered with it. -/
theorem known_bindConstructors {ds : List Datatype} (hds : ds ⊆ W.datatypes) (henv : env.Known w W)
    (hnames : w.strict → ∀ d ∈ ds, ∀ c ∈ d.constructors, standard.lookup c.name = none) :
    (ds.foldl bindConstructors env).Known w W := by
  refine henv.foldl fun d hd env h => h.foldl fun c hc env h => h.bindValue ?_ nofun ?_
  · intro _ con hcon _
    cases hcon
    exact ⟨d, hds hd, c, hc, rfl, rfl⟩
  · exact fun hstrict => hnames hstrict d hd c hc

/-- Only here are datatypes declared. -/
theorem declares_datatypesDecl (henv : env.Known w W) (bs : List DatatypeBinding)
    (hexn : w.tracked → "exn" ∉ bs.map (·.name))
    (hnames : w.strict → ∀ x ∈ bs.flatMap fun b => b.constructors.map (·.name),
      standard.lookup x = none) :
    Declares cfg (bs.map (·.name)) w W (datatypesDecl env level pos bs) (fun _ => [])
      (Made w) := by
  have hyields : Yields cfg (datatypesDecl env level pos bs) fun made =>
      ∃ ds : List Datatype, ds.map (·.name) = bs.map (·.name) ∧
        (ds.flatMap fun d => d.constructors.map (·.name)) =
          (bs.flatMap fun b => b.constructors.map (·.name)) ∧
        made = ⟨some (.datatypes pos ds),
          ds.foldl bindConstructors (ds.foldl bindDatatype env), []⟩ := by
    unfold datatypesDecl
    refine .bind (yields_declareDatatypes bs []) ?_
    rintro drafts ⟨hmap, hdrafts⟩
    refine .bind (yields_completeDatatypes drafts [] hdrafts) ?_
    rintro ds ⟨hnames, hds⟩
    refine .then fun _ => .pure ⟨ds, ?_, ?_, rfl⟩
    · rw [hnames, ← hmap, List.map_map]
      rfl
    · rw [hds, ← hmap, List.flatMap_map]
  intro s
  have hsteady : Continued s [] (datatypesDecl env level pos bs cfg s).2 :=
    ⟨rfl, stepwise_steady.datatypesDecl bs s⟩
  rcases hrun : datatypesDecl env level pos bs cfg s with ⟨r, s₁⟩
  rw [hrun] at hsteady
  cases r with
  | error e => exact ⟨[], List.nil_subperm, hsteady, nofun, nofun⟩
  | ok made =>
    obtain ⟨ds, hmap, hds, rfl⟩ := hyields s made s₁ hrun
    refine ⟨ds, hmap ▸ List.Subperm.refl _, hsteady, nofun, ?_⟩
    intro a s' hok
    cases hok
    have hnamed : (ds.foldl bindDatatype env).Known w (W.add ds []) := by
      refine (henv.mono World.le_add).foldl fun d hd env h => h.bindType fun htracked hname => ?_
      exact absurd (hmap ▸ List.mem_map.mpr ⟨d, hd, hname⟩) (hexn htracked)
    refine ⟨known_bindConstructors (List.subset_append_right _ ds) hnamed ?_, allTested_nil⟩
    intro hstrict d hd c hc
    exact hnames hstrict c.name (hds ▸ List.mem_flatMap.mpr ⟨d, hd, List.mem_map_of_mem hc⟩)

theorem registered_exception {R : List Datatype} {exn : Datatype} (hopen : exn.isOpen = true)
    (c : Constructor) : ValueEntry.Registered R ⟨exn.scheme c, .exception (exn.con c true)⟩ := by
  intro con hcon hclosed
  cases hcon
  unfold Con.isOpen Datatype.con at hclosed
  rw [hopen] at hclosed
  cases hclosed

/-- Only here are exceptions introduced. -/
theorem declares_declareExceptions {exn : Datatype} (hopen : w.tracked → exn.isOpen = true)
    (bs : List ConBinding) (henv : env.Known w W)
    (hnames : w.strict → ∀ b ∈ bs, standard.lookup b.name = none) :
    Declares cfg [] w W (declareExceptions exn level env bs)
      (eventsExceptions cfg exn level env bs) fun W r => r.1.Known w W := by
  induction bs generalizing env W with
  | nil => exact .plain (.pure henv)
  | cons b bs ih =>
    have hrest : ∀ arg, Declares cfg [] w W (do
        modify fun s => { s with exceptions := s.exceptions + 1 }
        let made : Constructor := ⟨b.name, (← get).exceptions, arg⟩
        let con := exn.con made true
        let σ := exn.scheme made
        let r ← declareExceptions exn level (env.bindValue b.name ⟨σ, .exception con⟩) bs
        return (r.1, (con, σ) :: r.2))
        (fun s =>
          let made : Constructor := ⟨b.name, s.exceptions + 1, arg⟩
          let con := exn.con made true
          .exception con :: eventsExceptions cfg exn level
            (env.bindValue b.name ⟨exn.scheme made, .exception con⟩) bs
            { s with exceptions := s.exceptions + 1 }) fun W r => r.1.Known w W := by
      intro arg s
      let made : Constructor := ⟨b.name, s.exceptions + 1, arg⟩
      let con := exn.con made true
      let next := env.bindValue b.name ⟨exn.scheme made, .exception con⟩
      have hnext : next.Known w (W.add [] [con]) := by
        refine (henv.mono World.le_add).bindValue (fun htracked =>
          registered_exception (hopen htracked) made) ?_ fun hstrict =>
            hnames hstrict b List.mem_cons_self
        intro con' hcon'
        cases hcon'
        exact List.mem_append_right _ (List.mem_singleton.mpr rfl)
      have hlater : Declares cfg [] w (W.add [] [con]) (do
          let r ← declareExceptions exn level next bs
          return (r.1, (con, exn.scheme made) :: r.2))
          (eventsExceptions cfg exn level next bs) fun W r => r.1.Known w W :=
        .last (ih hnext fun hstrict b' hb' => hnames hstrict b' (List.mem_cons_of_mem b hb'))
          fun _ _ _ hr => .pure hr
      let s₁ : State := { s with exceptions := s.exceptions + 1 }
      obtain ⟨R', hR', hcontinued, hpoints, hresult⟩ := hlater s₁
      have hfirst : Continued s [con] s₁ := ⟨rfl, rfl⟩
      rw [World.add_add] at hpoints hresult
      exact ⟨R', hR', hfirst.append hcontinued, hpoints, hresult⟩
    unfold declareExceptions eventsExceptions
    exact .after (stepwise_steady.optionMapM fun _ => stepwise_steady.elaborateType _ _) hrest

theorem declares_exceptionsDecl (henv : env.Known w W) (bs : List ConBinding)
    (hnames : w.strict → ∀ b ∈ bs, standard.lookup b.name = none) :
    Declares cfg [] w W (exceptionsDecl env level pos bs)
      (eventsDecl cfg env level (.exceptions pos bs)) (Made w) := by
  unfold exceptionsDecl eventsDecl
  refine .here henv ?_
  cases hexn : (env.type? "exn").bind TypeEntry.datatype? with
  | none => exact .fail
  | some exn =>
    have hopen : w.tracked → exn.isOpen = true := by
      intro htracked
      obtain ⟨entry, hentry, hdatatype⟩ := Option.bind_eq_some_iff.mp hexn
      exact (henv.registered htracked).entries.type? hentry rfl exn hdatatype
    exact .last (declares_declareExceptions hopen bs henv hnames)
      fun _ _ _ hr => .pure ⟨hr, allTested_nil⟩

theorem plain_abbreviationDecl (henv : env.Known w W) (params : List String) (name : String)
    (type : TypeExpr) : Plain cfg (abbreviationDecl env level pos params name type) (Made w W) := by
  refine ⟨stepwise_steady.abbreviationDecl params name type, ?_⟩
  unfold abbreviationDecl
  refine .then fun params => .then fun body => .then fun _ => .pure ⟨henv.bindType ?_, ?_⟩
  · exact fun _ _ d hd => by cases hd
  · exact allTested_nil

/-! ## All expressions and declarations -/

/-- The declarations `ds` declare no datatype of exceptions, and they do not bind standard
names. -/
def Admissible (w : Watch) (ds : List Decl) : Prop :=
  ∀ d ∈ ds, (w.tracked → "exn" ∉ d.datatypeNames) ∧
    (w.strict → ∀ x ∈ declNames (Env.initial {}).1 d, standard.lookup x = none)

theorem Admissible.append {ds ds' : List Decl} (h : Admissible w (ds ++ ds')) :
    Admissible w ds ∧ Admissible w ds' :=
  List.forall_mem_append.mp h

theorem flatMap_range_getElem? {γ : Type} (xs : List α) (g : α → List γ) :
    (List.range xs.length).flatMap (fun i => (xs[i]?).elim [] g) = xs.flatMap g := by
  induction xs with
  | nil => rfl
  | cons x xs ih =>
    rw [List.length_cons, List.range_succ_eq_map, List.flatMap_cons, List.flatMap_map,
      List.flatMap_cons]
    exact congrArg (g x ++ ·) ih

/-- Every function of a group is elaborated once. -/
theorem components_names_subperm (bs : List FunBinding)
    (hnodup : ((members bs).map (·.name)).Nodup) :
    ((Dependency.components (bs.map fun b =>
        ⟨b.name, b.clauses.map fun c => (c.params, c.body)⟩)).flatten.flatMap fun i =>
          (bs[i]?).elim [] fun b => datatypeNames (clausesDecls b.clauses)).Subperm
      (datatypeNames (bindingsDecls bs)) := by
  have hnames : ∀ bs : List FunBinding, (members bs).map (·.name) = bs.map (·.name) := by
    intro bs
    induction bs with
    | nil => rfl
    | cons b bs ih =>
      obtain ⟨_, _, _⟩ := b
      rw [members, List.map_cons, List.map_cons, ih]
  rw [hnames] at hnodup
  have hsorted := @Dependency.sorted_components (bs.map fun b =>
    ⟨b.name, b.clauses.map fun c => (c.params, c.body)⟩) (by rw [List.map_map]; exact hnodup)
  have hperm := hsorted.partition
  rw [List.length_map] at hperm
  refine (hperm.flatMap_right _).subperm.trans ?_
  rw [flatMap_range_getElem?, bindingsDecls_eq_flatMap]
  unfold datatypeNames
  rw [List.flatMap_assoc]

mutual

theorem declares_elaborateExpr {env : Env} {level : Int} {W : World} (henv : env.Known w W) :
    (e : Expr) → Admissible w e.decls →
    Declares cfg (datatypeNames e.decls) w W (elaborateExpr env level e)
      (eventsExpr cfg env level e) (ExprTested w)
  | .literal pos lit, _ => by
    unfold elaborateExpr eventsExpr
    exact .here henv (.plain (.pure allTested_nil))
  | .var pos name, _ => by
    unfold elaborateExpr eventsExpr
    exact .here henv (.plain (plain_identifier name))
  | .app pos func arg, h => by
    unfold elaborateExpr eventsExpr
    rw [Expr.decls, datatypeNames_append]
    refine .here henv (.bind (declares_elaborateExpr henv func h.append.1) ?_)
    intro f W₁ hle hf
    refine .last (declares_elaborateExpr (henv.mono hle) arg h.append.2) ?_
    intro e W₂ hle₂ he
    exact plain_application (hf.mono hle₂) he
  | .fn pos rules, h => by
    unfold elaborateExpr eventsExpr
    refine .here henv (.after .freshType fun param => .after .freshType fun result => ?_)
    refine .last (declares_elaborateRules henv param result rules h) ?_
    intro rs W₁ _ hrs
    exact plain_function (rulesTests_tested hrs)
  | .case pos scrutinee rules, h => by
    unfold elaborateExpr eventsExpr
    rw [Expr.decls, datatypeNames_append]
    refine .here henv (.bind (declares_elaborateExpr henv scrutinee h.append.1) ?_)
    intro e W₁ hle he
    refine .after .freshType fun result => ?_
    refine .last (declares_elaborateRules (henv.mono hle) e.type result rules
      h.append.2) ?_
    intro rs W₂ hle₂ hrs
    exact .then (stepwise_steady.compileMatch _ _ _) fun m =>
      .pure ((he.mono hle₂).append (rulesTests_tested hrs))
  | .letIn pos decls body, h => by
    unfold elaborateExpr eventsExpr
    rw [Expr.decls, datatypeNames_append]
    refine .here henv (.bind (declares_elaborateDecls henv.scope decls
      h.append.1) ?_)
    rintro ds W₁ hle ⟨hdsEnv, hds⟩
    refine .last (declares_elaborateExpr hdsEnv body h.append.2) ?_
    intro e W₂ hle₂ he
    exact .pure ((hds.mono hle₂).append he)
  | .tuple pos elems, h => by
    unfold elaborateExpr eventsExpr
    refine .here henv (.last (declares_elaborateExprs henv elems h) ?_)
    intro es W₁ _ hes
    split
    · exact .pure (hes _ List.mem_cons_self)
    · exact .then (.liftStore _) fun t => .pure (exprsTests_tested hes)
  | .record pos fields, h => by
    unfold elaborateExpr eventsExpr
    refine .here henv (.last (declares_elaborateFields henv pos [] fields h
      fun _ hf => absurd hf List.not_mem_nil) ?_)
    intro fs W₁ _ hfs
    exact .then (.liftStore _) fun t => .pure (fieldsTests_tested hfs)
  | .selector pos label, _ => by
    unfold elaborateExpr eventsExpr
    refine .here henv (.plain ⟨stepwise_steady.selector label, ?_⟩)
    unfold selector
    exact .then fun field => .then fun rest => .then fun record => .then fun t =>
      .pure allTested_nil
  | .list pos elems, h => by
    unfold elaborateExpr eventsExpr
    exact .here henv (declares_listExpr fun elem =>
      declares_elaborateListElements henv elem elems h)
  | .seq pos exprs, h => by
    unfold elaborateExpr eventsExpr
    refine .here henv (.last (declares_elaborateExprs henv exprs h) ?_)
    intro es W₁ _ hes
    split
    · exact .pure allTested_nil
    · exact .pure (exprsTests_tested hes)
  | .cond pos test whenTrue whenFalse, h => by
    unfold elaborateExpr eventsExpr
    rw [Expr.decls, datatypeNames_append, datatypeNames_append]
    obtain ⟨htest, hbranches⟩ := h.append
    refine .here henv (declares_conditional henv
      (declares_elaborateExpr henv test htest) ?_)
    intro W₁ hle
    refine .bind (declares_elaborateExpr (henv.mono hle) whenTrue
      hbranches.append.1) ?_
    intro a W₂ hle₂ ha
    refine .last (declares_elaborateExpr ((henv.mono hle).mono hle₂) whenFalse
      hbranches.append.2) ?_
    intro b W₃ hle₃ hb
    exact .pure ⟨ha.mono hle₃, hb⟩
  | .andalso pos left right, h => by
    unfold elaborateExpr eventsExpr
    rw [Expr.decls, datatypeNames_append]
    refine .here henv (declares_conditional henv
      (declares_elaborateExpr henv left h.append.1) ?_)
    intro W₁ hle
    refine .last (declares_elaborateExpr (henv.mono hle) right h.append.2) ?_
    intro a W₂ _ ha
    exact .bind (plain_identifier "false") fun b hb => .pure ⟨ha, hb⟩
  | .orelse pos left right, h => by
    unfold elaborateExpr eventsExpr
    rw [Expr.decls, datatypeNames_append]
    refine .here henv (declares_conditional henv
      (declares_elaborateExpr henv left h.append.1) ?_)
    intro W₁ hle
    have htrue : Plain cfg (identifier env level pos "true") (ExprTested w W₁) :=
      plain_identifier "true"
    refine .first htrue fun a ha => ?_
    refine .last (declares_elaborateExpr (henv.mono hle) right h.append.2) ?_
    intro b W₂ hle₂ hb
    exact .pure ⟨ha.mono hle₂, hb⟩
  | .raise pos expr, h => by
    unfold elaborateExpr eventsExpr
    refine .here henv (.last (declares_elaborateExpr henv expr h) ?_)
    intro e W₁ _ he
    exact .then (stepwise_steady.unify _ _) fun _ => .then .freshType fun t => .pure he
  | .handle pos expr rules, h => by
    unfold elaborateExpr eventsExpr
    rw [Expr.decls, datatypeNames_append]
    refine .here henv (.bind (declares_elaborateExpr henv expr h.append.1) ?_)
    intro e W₁ hle he
    refine .last (declares_elaborateRules (henv.mono hle) Ty.exn e.type rules
      h.append.2) ?_
    intro rs W₂ hle₂ hrs
    exact .then (stepwise_steady.compileMatch _ _ _) fun m =>
      .pure ((he.mono hle₂).append (rulesTests_tested hrs))
  | .annot pos expr type, h => by
    unfold elaborateExpr eventsExpr
    refine .here henv (.last (declares_elaborateExpr henv expr h) ?_)
    intro e W₁ _ he
    exact .then (stepwise_steady.elaborateType _ _) fun t =>
      .then (stepwise_steady.unify _ _) fun _ => .pure he

theorem declares_elaborateExprs {env : Env} {level : Int} {W : World} (henv : env.Known w W) :
    (es : List Expr) → Admissible w (exprsDecls es) →
    Declares cfg (datatypeNames (exprsDecls es)) w W (elaborateExprs env level es)
      (eventsExprs cfg env level es) fun W es => ∀ e ∈ es, ExprTested w W e
  | [], _ => by
    unfold elaborateExprs eventsExprs
    exact .plain (.pure fun _ he => absurd he List.not_mem_nil)
  | e :: es, h => by
    unfold elaborateExprs eventsExprs
    rw [exprsDecls, datatypeNames_append]
    refine .bind (declares_elaborateExpr henv e h.append.1) ?_
    intro e' W₁ hle he
    refine .last (declares_elaborateExprs (henv.mono hle) es h.append.2) ?_
    intro es' W₂ hle₂ hes
    exact .pure (List.forall_mem_cons.mpr ⟨he.mono hle₂, hes⟩)

theorem declares_elaborateListElements {env : Env} {level : Int} {W : World} (henv : env.Known w W)
    (elem : Ty) : (es : List Expr) →
    Admissible w (exprsDecls es) →
    Declares cfg (datatypeNames (exprsDecls es)) w W
      (elaborateListElements env level elem es) (eventsElements cfg env level elem es)
      fun W es => ∀ e ∈ es, ExprTested w W e
  | [], _ => by
    unfold elaborateListElements eventsElements
    exact .plain (.pure fun _ he => absurd he List.not_mem_nil)
  | e :: es, h => by
    unfold elaborateListElements eventsElements
    rw [exprsDecls, datatypeNames_append]
    refine .bind (declares_elaborateExpr henv e h.append.1) ?_
    intro e' W₁ hle he
    refine .after (stepwise_steady.unify _ _) fun _ => ?_
    refine .last (declares_elaborateListElements (henv.mono hle) elem es
      h.append.2) ?_
    intro es' W₂ hle₂ hes
    exact .pure (List.forall_mem_cons.mpr ⟨he.mono hle₂, hes⟩)

theorem declares_elaborateFields {env : Env} {level : Int} {W : World} (henv : env.Known w W)
    (pos : Pos) (done : List (String × Typed.Expr)) :
    (fs : List (String × Expr)) → Admissible w (fieldsDecls fs) →
    (∀ f ∈ done, ExprTested w W f.2) →
    Declares cfg (datatypeNames (fieldsDecls fs)) w W
      (elaborateFields env level pos done fs) (eventsFields cfg env level pos done fs)
      fun W fs => ∀ f ∈ fs, ExprTested w W f.2
  | [], _, hdone => by
    unfold elaborateFields eventsFields
    exact .plain (.pure hdone)
  | (label, e) :: fs, h, hdone => by
    unfold elaborateFields eventsFields
    rw [fieldsDecls, datatypeNames_append]
    refine .ite .fail_bind (.bind (declares_elaborateExpr henv e h.append.1) ?_)
    intro e' W₁ hle he
    refine declares_elaborateFields (henv.mono hle) pos _ fs h.append.2 ?_
    exact List.forall_mem_append.mpr
      ⟨fun f hf => (hdone f hf).mono hle, List.forall_mem_singleton.mpr he⟩

theorem declares_elaborateRules {env : Env} {level : Int} {W : World} (henv : env.Known w W)
    (arg result : Ty) : (rules : List Rule) →
    Admissible w (rulesDecls rules) →
    Declares cfg (datatypeNames (rulesDecls rules)) w W
      (elaborateRules env level arg result rules) (eventsRules cfg env level arg result rules)
      fun W rs => ∀ r ∈ rs, RuleTested w W r
  | [], _ => by
    unfold elaborateRules eventsRules
    exact .plain (.pure fun _ hr => absurd hr List.not_mem_nil)
  | ⟨_, pattern, none, body⟩ :: rules, h => by
    unfold elaborateRules eventsRules
    rw [rulesDecls, datatypeNames_append]
    refine .first (plain_pattern henv pattern) ?_
    rintro ⟨p, vars⟩ ⟨hp, hscope, -⟩
    refine .after (stepwise_steady.unify _ _) fun _ =>
      .bind (declares_elaborateExpr hscope body h.append.1) ?_
    intro e W₁ hle he
    refine .after (stepwise_steady.unify _ _) fun _ => ?_
    refine .last (declares_elaborateRules (henv.mono hle) arg result rules
      h.append.2) ?_
    intro rs W₂ hle₂ hrs
    refine .pure (List.forall_mem_cons.mpr ⟨?_, hrs⟩)
    exact AllTested.append (AllTested.mono hp.1 (World.le_trans hle hle₂))
      (AllTested.append (he.mono hle₂) allTested_nil)
  | ⟨_, pattern, some guard, body⟩ :: rules, h => by
    unfold elaborateRules eventsRules
    rw [rulesDecls, datatypeNames_append, datatypeNames_append]
    obtain ⟨hguard, hrest⟩ := h.append
    refine .first (plain_pattern henv pattern) ?_
    rintro ⟨p, vars⟩ ⟨hp, hscope, -⟩
    refine .after (stepwise_steady.unify _ _) fun _ =>
      .bind (declares_elaborateExpr hscope guard hguard) ?_
    intro g W₁ hle hg
    refine .after (stepwise_steady.unify _ _) fun _ =>
      .bind (declares_elaborateExpr (hscope.mono hle) body hrest.append.1) ?_
    intro e W₂ hle₂ he
    have hle₁₂ := World.le_trans hle hle₂
    refine .after (stepwise_steady.unify _ _) fun _ => ?_
    refine .last (declares_elaborateRules (henv.mono hle₁₂) arg result rules
      hrest.append.2) ?_
    intro rs W₃ hle₃ hrs
    refine .pure (List.forall_mem_cons.mpr ⟨?_, hrs⟩)
    exact AllTested.append (AllTested.mono hp.1 (World.le_trans hle₁₂ hle₃))
      (AllTested.append (hg.mono (World.le_trans hle₂ hle₃))
        (AllTested.append (he.mono hle₃) allTested_nil))

theorem declares_elaborateDecl {env : Env} {level : Int} {W : World} (henv : env.Known w W) :
    (d : Decl) → Admissible w d.decls →
    Declares cfg (datatypeNames d.decls) w W (elaborateDecl env level d)
      (eventsDecl cfg env level d) (Made w)
  | .val pos false pattern expr, h => by
    unfold elaborateDecl eventsDecl
    refine .here henv (.withinValue (.last (declares_elaborateExpr henv expr
      (List.forall_mem_cons.mp h).2) ?_))
    intro e W₁ hle he
    exact plain_valueDecl (henv.mono hle) pattern _ he
  | .val pos true pattern expr, h => by
    unfold elaborateDecl eventsDecl
    refine .here henv (.withinValue (declares_recursiveDecl henv pattern _ _ ?_))
    intro scope hscope
    exact declares_elaborateExpr hscope expr (List.forall_mem_cons.mp h).2
  | .functions pos bindings, h => by
    unfold elaborateDecl eventsDecl
    refine .here henv (.withinValue (declares_functionsDecl henv
      (declares_members_of bindings (List.forall_mem_cons.mp h).2) ?_))
    exact components_names_subperm bindings
  | .datatypes pos bindings, h => by
    unfold elaborateDecl eventsDecl
    obtain ⟨hexn, hnames⟩ := List.forall_mem_singleton.mp h
    rw [Decl.decls, datatypeNames_cons, datatypeNames_nil, List.append_nil]
    exact .here henv (declares_datatypesDecl henv bindings hexn hnames)
  | .abbreviation pos params name type, _ => by
    unfold elaborateDecl eventsDecl
    exact .here henv (.plain (plain_abbreviationDecl henv params name type))
  | .exceptions pos bindings, h => by
    unfold elaborateDecl
    obtain ⟨-, hnames⟩ := List.forall_mem_singleton.mp h
    refine declares_exceptionsDecl henv bindings ?_
    exact fun hstrict b hb => hnames hstrict b.name (List.mem_map_of_mem hb)
  | .localIn pos decls body, h => by
    unfold elaborateDecl eventsDecl
    obtain ⟨hdecls, hbody⟩ := Admissible.append (List.forall_mem_cons.mp h).2
    rw [Decl.decls, datatypeNames_cons, datatypeNames_append]
    show Declares cfg (datatypeNames (declsDecls decls) ++ datatypeNames (declsDecls body)) w W
      _ _ _
    refine .here henv (.bind (declares_elaborateDecls henv.scope decls
      hdecls) ?_)
    rintro ds W₁ hle ⟨hdsEnv, hds⟩
    refine .last (declares_elaborateDecls hdsEnv.scope body hbody) ?_
    rintro bs W₂ hle₂ ⟨hbsEnv, hbs⟩
    refine .pure ⟨((henv.mono hle).mono hle₂).adopt hbsEnv, ?_⟩
    exact ((hds.mono hle₂).append hbs).append allTested_nil

theorem declares_elaborateDecls {env : Env} {level : Int} {W : World} (henv : env.Known w W) :
    (ds : List Decl) → Admissible w (declsDecls ds) →
    Declares cfg (datatypeNames (declsDecls ds)) w W (elaborateDecls env level ds)
      (eventsDecls cfg env level ds) fun W r =>
        r.2.1.Known w W ∧ AllTested w (Typed.declsTests r.1) W
  | [], _ => by
    unfold elaborateDecls eventsDecls
    exact .here henv (.plain (.pure ⟨henv, allTested_nil⟩))
  | d :: ds, h => by
    unfold elaborateDecls eventsDecls
    rw [declsDecls, datatypeNames_append]
    refine .bind (declares_elaborateDecl henv d h.append.1) ?_
    rintro first W₁ hle ⟨hfirstEnv, hfirst⟩
    refine .last (declares_elaborateDecls hfirstEnv ds h.append.2) ?_
    rintro ⟨rest, env', bindings⟩ W₂ hle₂ ⟨henv', hrest⟩
    refine .pure ⟨henv', ?_⟩
    rw [Typed.declsTests_append]
    exact (hfirst.mono hle₂).append hrest

theorem declares_members_of : (bs : List FunBinding) → Admissible w (bindingsDecls bs) →
    (i : Nat) → (f : Member) → (members bs)[i]? = some f →
    MemberDeclares cfg w (fun i => (bs[i]?).elim [] fun b : FunBinding =>
      datatypeNames (clausesDecls b.clauses)) (tours cfg bs) i f
  | [], _, i, f, hf => by cases hf
  | ⟨pos, name, clauses⟩ :: bs, h, 0, f, hf => by
    unfold members at hf
    unfold tours
    cases hf
    refine ⟨_, rfl, ?_⟩
    intro env level W henv
    exact declares_curriedFunction fun params scrutinee result =>
      declares_elaborateClauses henv name params scrutinee result clauses h.append.1
  | ⟨pos, name, clauses⟩ :: bs, h, i + 1, f, hf => by
    unfold members at hf
    unfold tours
    exact declares_members_of bs h.append.2 i f hf

theorem declares_elaborateClauses {env : Env} {level : Int} {W : World} (henv : env.Known w W)
    (name : String) (params : List Ty) (scrutinee result : Ty) :
    (cs : List FunClause) → Admissible w (clausesDecls cs) →
    Declares cfg (datatypeNames (clausesDecls cs)) w W
      (elaborateClauses env level name params scrutinee result cs)
      (eventsClauses cfg env level name params scrutinee result cs)
      fun W rs => ∀ r ∈ rs, RuleTested w W r
  | [], _ => by
    unfold elaborateClauses eventsClauses
    exact .plain (.pure fun _ hr => absurd hr List.not_mem_nil)
  | ⟨pos, patterns, annot, body⟩ :: cs, h => by
    unfold elaborateClauses eventsClauses
    rw [clausesDecls, datatypeNames_append]
    refine .bind (declares_functionClause henv fun scope hscope =>
      declares_elaborateExpr hscope body h.append.1) ?_
    intro r W₁ hle hr
    refine .last (declares_elaborateClauses (henv.mono hle) name params scrutinee
      result cs h.append.2) ?_
    intro rs W₂ hle₂ hrs
    exact .pure (List.forall_mem_cons.mpr ⟨hr.mono hle₂, hrs⟩)

end

end Elaborate

end Typecase
