import Typecase.Proofs.Elaborate.Traversal
set_option autoImplicit false

/-!
# Properties that pass from steps to computations

A property of computations that all steps of elaboration have, and that passes on from parts to the
whole, is a property of types, patterns, matches and of the forms of expressions and declarations.
If it passes on from the inside of value declarations to the outside, too, it is a property of the
elaboration of every expression and every declaration.
-/

namespace Typecase.Elaborate

open Source

variable {α β : Type} {env : Env} {n : Int} {pos : Pos}

/-- `P` holds of the steps of elaboration and passes on from parts to the whole.  A variable may be
missing only from an environment with the property `Q`. -/
structure Stepwise (Q : Env → Prop) (P : (α : Type) → ElaborateM α → Prop) : Prop where
  inherited : Inherited Q
  pure : ∀ {α : Type} (a : α), P α (pure a)
  /-- What fails for lack of a variable is looked at on its own. -/
  fail : ∀ {α : Type} (pos : Pos) (p : Problem), p.missing? = none → P α (fail pos p)
  missing : ∀ {α : Type} {env : Env} {name : String} (pos : Pos), Q env → env.value? name = none →
    P α (Elaborate.fail pos (.unboundIdentifier name))
  crash : ∀ {α : Type}, P α crash
  /-- Only the results that are possible matter to what follows. -/
  chain : ∀ {α β : Type} {m : ElaborateM α} {k : α → ElaborateM β},
    P α m → (∀ a, Possible m a → P β (k a)) → P β (m >>= k)
  liftStore : ∀ {α : Type} {act : StoreM α}, Store.Quiet act → P α (liftStore act)
  getStore : P Store getStore
  /-- Settings are read, but not the limit of errors. -/
  read : ∀ {β : Type} {k : Config → ElaborateM β}, (∀ c, P β (k c)) →
    (∀ c limit, k { c with maxErrors := limit } = k c) → P β (read >>= k)
  trace : ∀ (message : String) (values : List (String × Log.Value)), P Unit (trace message values)
  report : ∀ (p : Problem) (severity : Severity) (pos : Pos), p.missing? = none →
    P Unit (liftM (report (p.diagnostic severity pos)))
  typeVariable : ∀ (pos : Pos) (name : String), P Ty (typeVariable none pos name)
  /-- A datatype is numbered. -/
  countDatatype : ∀ {β : Type} {k : Nat → ElaborateM β}, (∀ id, P β (k id)) →
    P β (get >>= fun s => modify (fun s' => { s' with datatypes := s.datatypes + 1 }) >>= fun _ =>
      k s.datatypes)

/-- The judgement that a property holds of one run, wherever it takes place. -/
abbrev alone (P : (α : Type) → ElaborateM α → Prop) : Judgement := fun α _ _ _ m _ _ _ => P α m

namespace Stepwise

variable {Q : Env → Prop} {P : (α : Type) → ElaborateM α → Prop} (h : Stepwise Q P)
include h

theorem bind {m : ElaborateM α} {k : α → ElaborateM β} (hm : P α m) (hk : ∀ a, P β (k a)) :
    P β (m >>= k) :=
  h.chain hm fun a _ => hk a

theorem generalize (t : Ty) : P Scheme (generalize env pos n t) := by
  unfold Elaborate.generalize
  refine h.bind h.getStore fun before => h.read (fun c =>
    h.bind (h.liftStore (Store.quiet_generalize n t)) fun σ => h.bind h.getStore fun s => ?_)
    fun _ _ => rfl
  split
  · exact h.fail _ _ rfl
  · exact h.pure _

theorem steps : Steps (fun _ => True) (fun _ => True) Q (alone P) where
  base_of_inner := fun h => h
  inner_succ := fun h => h
  inherited := h.inherited
  pure := fun _ _ => h.pure _
  fail := h.fail
  missing := h.missing
  crash := h.crash
  chain := fun hm hk => h.chain hm fun a ha => hk a a ha rfl
  weaken := fun hm _ => hm
  liftStore := fun hact _ => h.liftStore hact
  getStore := fun _ _ => h.getStore
  read := fun hsame hk => h.read hk fun c limit => hsame c c.checkGeneralization limit
  trace := h.trace
  report := h.report
  typeVariable := fun _ _ => h.typeVariable
  countDatatype := h.countDatatype
  generalize := fun _ _ => h.generalize _

omit h in
theorem scope (henv : Q env) (n : Int) (B : List Bound) :
    Steps.Scope (fun _ => True) Q 1 n (upTo n env.vars ++ B) true env env :=
  ⟨Nat.one_ne_zero, trivial, henv, .refl env, Env.over_vars⟩

omit h in
theorem declScope (henv : Q env) (n : Int) (B : List Bound) :
    Steps.DeclScope (fun _ => True) Q n (upTo n env.vars ++ B) true env env :=
  ⟨trivial, henv, .refl env, Env.over_vars⟩

omit h in
theorem same (env : Env) : env.Alike true env := .refl env

theorem freshType : P Ty (freshType n) := h.liftStore (Store.quiet_freshType n)

theorem mapM {xs : List α} {f : α → ElaborateM β} (hf : ∀ x, P β (f x)) : P (List β) (xs.mapM f) :=
  h.steps.mapM_same (d := 0) (B := []) (g := f) (q := fun _ => []) fun x _ _ _ => hf x

theorem optionMapM {x : Option α} {f : α → ElaborateM β} (hf : ∀ x, P β (f x)) :
    P (Option β) (x.mapM f) :=
  h.steps.optionMapM (d := 0) (B := []) (g := f) (q := fun _ => []) hf

/-! ## Types, patterns and matches -/

theorem unify (expected found : Ty) : P Unit (unify pos expected found) :=
  h.steps.unify (d := 0) 0 (List.Subset.refl _)

theorem elaborateType (params : Option (LabelMap Var)) (t : TypeExpr) :
    P Ty (elaborateType env n params t) := by
  cases params with
  | none =>
    exact h.steps.elaborateType (d := 1) trivial (same env) t (Env.over_vars (B := []))
      ⟨Nat.one_ne_zero, trivial⟩
  | some params =>
    exact h.steps.elaborateType (d := 0) trivial (same env) t Env.over_vars
      (show Steps.Fits _ 0 n _ (some params) from List.subset_append_right _ _)

theorem constructor (name : String) : P (Con × Scheme) (constructor env pos name) :=
  h.steps.constructor (d := 0) (n := 0) (same env) (Env.over_vars (B := [])) name

theorem elaboratePattern (henv : Q env) (p : Source.Pattern) (vars : PatternVars) :
    P (Pattern Note × PatternVars) (elaboratePattern env n p vars) :=
  h.steps.elaboratePattern p (scope henv n []) vars

theorem elaborateParams (henv : Q env) (ps : List Source.Pattern) (ts : List Ty)
    (vars : PatternVars) :
    P (List (Pattern Note) × PatternVars) (elaborateParams env n ps ts vars) :=
  h.steps.elaborateParams ps ts (scope henv n (upTo n (Ty.varsList ts)))
    (List.subset_append_right _ _) vars

theorem reportRedundant (patterns : List (Pattern Note)) (r : Match.Result) :
    P Unit (reportRedundant patterns r) :=
  h.steps.reportRedundant (d := 0) (B := []) patterns r

theorem compileMatch (site : MatchSite) (clauses : List (Match.Clause Note)) (scrutinee : Ty) :
    P Match.Result (compileMatch site pos clauses scrutinee) :=
  h.steps.compileMatch (d := 0) (B := []) site clauses scrutinee

/-! ## Forms -/

theorem identifier (henv : Q env) (name : String) : P Typed.Expr (identifier env n pos name) :=
  h.steps.identifier (scope henv n []) name

theorem application {funcPos argPos : Pos} (func arg : Typed.Expr) :
    P Typed.Expr (application n pos funcPos argPos func arg) :=
  h.steps.application (d := 0) trivial rfl rfl (List.Subset.refl _)

theorem selector (label : String) : P Typed.Expr (selector n pos label) :=
  h.steps.selector (d := 0) (B := []) trivial label

theorem curried (params : List (String × Ty)) (body : Typed.Expr) :
    P Typed.Expr (curried pos params body) :=
  h.steps.curried (d := 0) (n := 0) rfl rfl (List.Subset.refl _)

theorem traceBindings (bindings : List Binding) : P PUnit (traceBindings bindings) :=
  h.steps.traceBindings (d := 0) (B := []) bindings

theorem valueDecl (henv : Q env) (pattern : Source.Pattern) (isValue : Bool) (expr : Typed.Expr) :
    P Elaborated (valueDecl env n pos pattern isValue expr) :=
  h.steps.valueDecl (declScope henv n (upTo (n + 1) (exprVars expr))) Nat.one_ne_zero pattern isValue
    rfl (List.subset_append_right _ _)

theorem checkNames (earlier : List String) (ms : List Member) :
    P Unit (checkNames env earlier ms) :=
  h.steps.checkNames (d := 0) (B := []) (same env) earlier ms

theorem generalizeMembers (rs : List (Nat × Member × Ty × Typed.Expr)) :
    P (Env × List (Nat × Typed.FunBinding)) (generalizeMembers n env rs) :=
  h.steps.generalizeMembers (d := 0)
    (declScope trivial n (rs.flatMap fun r => upTo (n + 1) r.2.2.1.vars)) rfl
    fun r hr => List.subset_append_of_subset_right _ fun _ hx => List.mem_flatMap.mpr ⟨r, hr, hx⟩

theorem datatypesDecl (bindings : List DatatypeBinding) :
    P Elaborated (datatypesDecl env n pos bindings) :=
  h.steps.datatypesDecl (d := 0) (declScope trivial n []) bindings

theorem abbreviationDecl (params : List String) (name : String) (type : TypeExpr) :
    P Elaborated (abbreviationDecl env n pos params name type) :=
  h.steps.abbreviationDecl (d := 0) (declScope trivial n []) params name type

end Stepwise

/-! ## What becomes of the state -/

/-- States are related by `R` if nothing but this was done: something to the store outside of
transactions, and anything that concerns neither value declarations nor exceptions. -/
structure Respected (R : State → State → Prop) : Prop where
  trans : ∀ {s s' s'' : State}, R s s' → R s' s'' → R s s''
  step : ∀ {α : Type} {act : StoreM α} {s s' : State}, Store.Quiet act →
    s'.store = (act s.store).2 → s'.valueDepth = s.valueDepth → s'.exceptions = s.exceptions → R s s'

section Respected

variable {R : State → State → Prop} {cfg : Config} (h : Respected R)
include h

theorem Respected.same {s s' : State} (hstore : s'.store = s.store)
    (hdepth : s'.valueDepth = s.valueDepth) (hexceptions : s'.exceptions = s.exceptions) : R s s' :=
  have hquiet : Store.Quiet (pure () : StoreM Unit) := fun _ hs => .refl hs
  h.step hquiet hstore hdepth hexceptions

theorem Respected.chain {m : ElaborateM α} {k : α → ElaborateM β} (hm : ∀ s, R s (m cfg s).2)
    (hk : ∀ a, Possible m a → ∀ s, R s (k a cfg s).2) (s : State) : R s ((m >>= k) cfg s).2 := by
  have hfirst := hm s
  rw [bind_run]
  rcases hrun : m cfg s with ⟨r, s₁⟩
  rw [hrun] at hfirst
  cases r with
  | error e => exact hfirst
  | ok a => exact h.trans hfirst (hk a ⟨cfg, s, s₁, hrun⟩ s₁)

/-- Every step of elaboration leads to a related state. -/
theorem Respected.stepwise : Stepwise (fun _ => True) fun _ m => ∀ s, R s (m cfg s).2 where
  inherited := inherited_true
  pure := fun _ _ => h.same rfl rfl rfl
  fail := fun _ _ _ _ => h.same rfl rfl rfl
  missing := fun _ _ _ _ => h.same rfl rfl rfl
  crash := fun _ => h.same rfl rfl rfl
  chain := h.chain
  liftStore := fun hact _ => h.step hact rfl rfl rfl
  getStore := fun _ => h.same rfl rfl rfl
  read := fun hk _ s => hk cfg s
  trace := fun _ _ _ => h.same rfl rfl rfl
  report := fun _ _ _ _ _ => h.same rfl rfl rfl
  typeVariable := by
    intro pos name s
    rw [typeVariable_run]
    cases LabelMap.find? s.typeVars name with
    | some v => exact h.same rfl rfl rfl
    | none => exact h.step (Store.quiet_fresh _) rfl rfl rfl
  countDatatype := by
    intro β k hk s
    have hcount : R s { s with datatypes := s.datatypes + 1 } := h.same rfl rfl rfl
    exact h.trans hcount (hk s.datatypes _)

end Respected

/-! ## Whole elaborations -/

/-- `P` holds of all steps of elaboration, also of those that make up names and number exceptions,
and passes on from parts to the whole. -/
structure Pervasive (Q : Env → Prop) (P : (α : Type) → ElaborateM α → Prop) : Prop
    extends Stepwise Q P where
  freshParam : P String freshParam
  /-- An exception is numbered. -/
  countException : ∀ {β : Type} {k : Nat → ElaborateM β}, (∀ tag, P β (k tag)) →
    P β (modify (fun s : State => { s with exceptions := s.exceptions + 1 }) >>= fun _ =>
      get >>= fun s => k s.exceptions)
  /-- A value declaration is entered and left. -/
  withinValue : ∀ {α : Type} {m : ElaborateM α} (n : Int), P α m → P α (withinValue n m)

namespace Pervasive

variable {Q : Env → Prop} {P : (α : Type) → ElaborateM α → Prop} (h : Pervasive Q P)
include h

theorem allSteps : AllSteps (fun _ => True) (fun _ => True) Q (alone P) where
  toSteps := h.steps
  freshParam := h.freshParam
  countException := h.countException
  withinValue := fun _ hm => h.withinValue _ hm

theorem elaborateExpr (henv : Q env) (n : Int) (e : Expr) : P Typed.Expr (elaborateExpr env n e) :=
  h.allSteps.elaborateExpr (Stepwise.scope henv n []) e

theorem elaborateDecl (henv : Q env) (n : Int) (decl : Decl) :
    P Elaborated (elaborateDecl env n decl) :=
  h.allSteps.elaborateDecl (d := 1) (Stepwise.declScope henv n []) nofun decl

end Pervasive

end Typecase.Elaborate
