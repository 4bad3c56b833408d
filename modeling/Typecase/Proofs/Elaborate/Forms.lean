import Typecase.Proofs.Elaborate.Judgement
set_option autoImplicit false

/-!
# Judgements about forms of expressions and declarations

A judgement that holds of the steps of elaboration, also of those that make up names and number
exceptions, holds of every form of expression and declaration, given the elaboration of its parts.
Of typed expressions, later steps see little: typed expressions may differ in made-up names.
-/

namespace Typecase

/-- The type of the first component of an expression that is a tuple in so many words. -/
def Typed.Expr.firstType? : Typed.Expr → Option Ty
  | .tuple _ (e :: _ :: _) => some e.type
  | _ => none

/-- What later steps see of an environment.  Its current frame is seen where it is adopted. -/
def Env.view (exact : Bool) (env : Env) :
    (String → Option ValueEntry) × (String → Option TypeEntry) × Option Frame :=
  (env.value?, env.type?, if exact then some env.current else none)

theorem Env.view_eq_iff {exact : Bool} {env env' : Env} :
    env'.view exact = env.view exact ↔ env.Alike exact env' := by
  unfold view
  rw [Prod.mk.injEq, Prod.mk.injEq, funext_iff, funext_iff]
  refine ⟨fun ⟨hvalue, htype, hcurrent⟩ => ⟨hvalue, htype, ?_⟩,
    fun h => ⟨h.value?, h.type?, ?_⟩⟩
  · rintro rfl
    simpa using hcurrent
  · cases exact with
    | true => simpa using h.current rfl
    | false => rfl

namespace Elaborate

open Source

/-! ## What names mean is all that matters -/

section Names

variable {exact : Bool} {env env' : Env}

theorem isConstructor_congr (h : env.Alike exact env') : env'.isConstructor = env.isConstructor :=
  funext h.isConstructor

mutual

theorem isValue_congr (h : env.Alike exact env') : (e : Expr) → isValue env' e = isValue env e
  | .literal .. | .var .. | .fn .. | .selector .. => by simp only [isValue]
  | .tuple _ es | .list _ es => by
    simp only [isValue]
    exact areValues_congr h es
  | .record _ fs => by
    simp only [isValue]
    exact fieldsAreValues_congr h fs
  | .annot _ e _ => by
    simp only [isValue]
    exact isValue_congr h e
  | .app _ (.var _ f) e => by
    simp only [isValue]
    rw [isConstructor_congr h, isValue_congr h e]
  | .app _ (.literal ..) _ | .app _ (.app ..) _ | .app _ (.fn ..) _ | .app _ (.case ..) _
  | .app _ (.letIn ..) _ | .app _ (.tuple ..) _ | .app _ (.record ..) _ | .app _ (.selector ..) _
  | .app _ (.list ..) _ | .app _ (.seq ..) _ | .app _ (.cond ..) _ | .app _ (.andalso ..) _
  | .app _ (.orelse ..) _ | .app _ (.raise ..) _ | .app _ (.handle ..) _ | .app _ (.annot ..) _ => by
    simp only [isValue]
  | .case .. | .letIn .. | .seq .. | .cond .. | .andalso .. | .orelse .. | .raise ..
  | .handle .. => by simp only [isValue]

theorem areValues_congr (h : env.Alike exact env') : (es : List Expr) →
    areValues env' es = areValues env es
  | [] => by simp only [areValues]
  | e :: es => by
    simp only [areValues]
    rw [isValue_congr h e, areValues_congr h es]

theorem fieldsAreValues_congr (h : env.Alike exact env') : (fs : List (String × Expr)) →
    fieldsAreValues env' fs = fieldsAreValues env fs
  | [] => by simp only [fieldsAreValues]
  | (_, e) :: fs => by
    simp only [fieldsAreValues]
    rw [isValue_congr h e, fieldsAreValues_congr h fs]

end

theorem recursiveName?_congr (h : env.Alike exact env') (p : Source.Pattern) :
    recursiveName? env' p = recursiveName? env p := by
  unfold recursiveName?
  simp only [isConstructor_congr h]

end Names

/-! ## What is seen of results -/

/-- What later steps see of a typed expression. -/
def exprView (e : Typed.Expr) : Note × Option Ty := (e.note, e.firstType?)

/-- The variables of a typed expression that later steps deal with. -/
def exprVars (e : Typed.Expr) : List Var := e.type.vars ++ e.firstType?.toList.flatMap Ty.vars

/-- What later steps see of a field. -/
def fieldView (f : String × Typed.Expr) : String × Note × Option Ty := (f.1, exprView f.2)

/-- What later steps see of a rule. -/
def ruleView (r : Typed.Rule) : Match.Clause Note := ⟨r.pattern, r.guard.isSome⟩

/-- What later steps see of a declaration. -/
def madeView (exact : Bool) (r : Elaborated) := (r.env.view exact, r.bindings)

/-- What later steps see of the functions of a group. -/
def groupView (exact : Bool) (r : Env × List (Nat × Typed.FunBinding)) :=
  (r.1.view exact, r.2.map fun f => (f.1, (⟨f.2.name, f.2.scheme⟩ : Binding)))

/-- An expression whose variables are within level `n`. -/
abbrev Types (J : Judgement) (d : Nat) (n : Int) (B : List Bound)
    (m m' : ElaborateM Typed.Expr) : Prop :=
  J Typed.Expr _ d B m m' exprView fun e => upTo n (exprVars e)

/-- Rules that are compiled alike. -/
abbrev Rules (J : Judgement) (d : Nat) (B : List Bound) (m m' : ElaborateM (List Typed.Rule)) :
    Prop :=
  J (List Typed.Rule) _ d B m m' (List.map ruleView) fun _ => []

/-- A declaration after which the environment lies within level `n`. -/
abbrev Makes (J : Judgement) (d : Nat) (n : Int) (B : List Bound) (exact : Bool)
    (m m' : ElaborateM Elaborated) : Prop :=
  J Elaborated _ d B m m' (madeView exact) fun r => upTo n r.env.vars

section Views

variable {e e' : Typed.Expr} {es es' : List Typed.Expr} {fs fs' : List (String × Typed.Expr)}

theorem lookup_map_snd {κ α β : Type} [BEq κ] {f : α → β} (xs : List (κ × α)) (i : κ) :
    (xs.lookup i).map f = (xs.map fun x => (x.1, f x.2)).lookup i := by
  induction xs with
  | nil => rfl
  | cons x xs ih =>
    rw [List.map_cons, List.lookup_cons, List.lookup_cons, ← ih]
    split <;> rfl

theorem type_eq (h : exprView e' = exprView e) : e'.type = e.type := congrArg (·.1.type) h

theorem types_eq (h : es'.map exprView = es.map exprView) :
    es'.map Typed.Expr.type = es.map Typed.Expr.type := by
  have htypes := congrArg (List.map fun v => v.1.type) h
  rwa [List.map_map, List.map_map] at htypes

theorem fieldTypes_eq (h : fs'.map fieldView = fs.map fieldView) :
    (fs'.map fun f => (f.1, f.2.type)) = fs.map fun f => (f.1, f.2.type) := by
  have htypes := congrArg (List.map fun v => (v.1, v.2.1.type)) h
  rwa [List.map_map, List.map_map] at htypes

theorem has_eq (h : fs'.map fieldView = fs.map fieldView) (label : String) :
    LabelMap.has fs' label = LabelMap.has fs label := by
  have hview : ∀ fs : List (String × Typed.Expr),
      LabelMap.has fs label = ((fs.map fieldView).lookup label).isSome := by
    intro fs
    rw [LabelMap.has, LabelMap.find?, ← Option.isSome_map, lookup_map_snd]
    rfl
  rw [hview, hview, h]

theorem getLast?_eq (h : es'.map exprView = es.map exprView) :
    es'.getLast?.map exprView = es.getLast?.map exprView := by
  rw [← List.getLast?_map, ← List.getLast?_map, h]

theorem varsList_types_subset : Ty.varsList (es.map Typed.Expr.type) ⊆ es.flatMap exprVars := by
  induction es with
  | nil => exact List.nil_subset _
  | cons e es ih => simp [Ty.varsList, exprVars, ih]

end Views

/-! ## Steps -/

/-- `J` holds of all steps of elaboration, also of those that make up names and number exceptions,
and passes on from parts to the whole. -/
structure AllSteps (base inner : Int → Prop) (Q : Env → Prop) (J : Judgement) : Prop extends
    Steps base inner Q J where
  freshParam : ∀ {d B}, J String Unit d B freshParam freshParam (fun _ => ()) fun _ => []
  /-- An exception is numbered. -/
  countException : ∀ {α γ d B} {k k' : Nat → ElaborateM α} {view : α → γ} {q},
    (∀ tag, J α γ d B (k tag) (k' tag) view q) →
    J α γ d B
      (modify (fun s : State => { s with exceptions := s.exceptions + 1 }) >>= fun _ =>
        get >>= fun s => k s.exceptions)
      (modify (fun s : State => { s with exceptions := s.exceptions + 1 }) >>= fun _ =>
        get >>= fun s => k' s.exceptions) view q
  /-- A value declaration is entered and left. -/
  withinValue : ∀ {α γ d B n m m'} {view : α → γ} {q}, (d = 0 → n = 0) →
    J α γ (d + 1) B m m' view q → J α γ d B (withinValue n m) (withinValue n m') view q

namespace Steps

variable {base inner : Int → Prop} {Q : Env → Prop} {J : Judgement} (L : Steps base inner Q J)
  {d : Nat} {B C : List Bound} {n l : Int} {exact : Bool} {env env' : Env} {pos : Pos} {t : Ty}
include L

/-! ## Forms of expressions -/

/-- An expression of which nothing but its type is seen. -/
theorem plain {e e' : Typed.Expr} (h : exprView e = (⟨pos, t⟩, none))
    (h' : exprView e' = (⟨pos, t⟩, none)) (ht : upTo n t.vars ⊆ B) :
    Types J d n B (Pure.pure e) (Pure.pure e') := by
  refine L.pure (h'.trans h.symm) ?_
  obtain ⟨hnote, hfirst⟩ := Prod.mk.inj h
  simpa [exprVars, Typed.Expr.type, hnote, hfirst] using ht

theorem identifier (h : Scope inner Q d n B exact env env') (name : String) :
    Types J d n B (identifier env n pos name) (identifier env' n pos name) := by
  unfold Elaborate.identifier
  rw [h.alike.value?]
  cases hvalue : env.value? name with
  | none => exact L.missing pos h.known hvalue
  | some entry =>
    refine L.after (L.instantiate (L.base_of_inner h.level) (h.within.value? hvalue)) fun t => ?_
    exact L.plain rfl rfl (by simp)

theorem functionType (hn : base n) (ht : upTo n t.vars ⊆ B) :
    J (Ty × Ty) (Ty × Ty) d B (functionType n pos t) (functionType n pos t) id
      fun r => upTo n (r.1.vars ++ r.2.vars) := by
  unfold Elaborate.functionType
  refine L.after (L.getStore [(n, t)] (by simpa using ht)) fun s => ?_
  simp only [List.flatMap_cons, List.flatMap_nil, List.append_nil]
  split
  · rename_i m a r hhead
    rw [hhead]
    exact L.pure rfl (by simp [Ty.vars])
  · refine L.after (L.freshType hn) fun a => L.after (L.freshType hn) fun r => ?_
    refine L.after (L.mkArrow (n := n) (by simp)) fun f => ?_
    exact L.after (L.unify n (by grind)) fun _ => L.pure rfl (by grind)

omit L in
theorem isCurriedCall_eq (param result : Ty) (arg : Typed.Expr) :
    Elaborate.isCurriedCall param result arg = do
      match arg.firstType?, (← Elaborate.getStore).head result with
      | some t, .arrow _ _ _ => Elaborate.liftStore (Store.canUnify param t)
      | _, _ => return false := by
  unfold Elaborate.isCurriedCall Typed.Expr.firstType?
  congr 1
  funext s
  cases arg with
  | tuple note es =>
    cases es with
    | nil => cases s.head result <;> rfl
    | cons e es => cases es <;> cases s.head result <;> rfl
  | _ => cases s.head result <;> rfl

/-- Whether a call looks curried depends on the first component of the argument alone. -/
theorem isCurriedCall {param result : Ty} {arg arg' : Typed.Expr}
    (hview : exprView arg' = exprView arg) (h : upTo n (param.vars ++ exprVars arg) ⊆ B) :
    J Bool Bool d B (isCurriedCall param result arg) (isCurriedCall param result arg') id
      fun _ => [] := by
  rw [isCurriedCall_eq, isCurriedCall_eq,
    show arg'.firstType? = arg.firstType? from congrArg (·.2) hview]
  refine L.after L.store fun s => ?_
  split
  · rename_i t _ _ _ harg _
    refine L.liftStore (Store.quiet_canUnify param t) fun _ s hs _ hbs => ⟨?_, nofun⟩
    have hvars : ∀ v ∈ param.vars ++ t.vars, s.WithinVar n v := by
      refine hbs.upTo ?_
      simp_all [exprVars]
    rw [List.forall_mem_append] at hvars
    exact Store.canUnify_advances hs (fun v hv => (hvars.1 v hv).1) fun v hv => (hvars.2 v hv).1
  · exact L.pure rfl (List.nil_subset _)

theorem application (hn : base n) {funcPos argPos : Pos} {func func' arg arg' : Typed.Expr}
    (hfunc : exprView func' = exprView func) (harg : exprView arg' = exprView arg)
    (h : upTo n (exprVars func ++ exprVars arg) ⊆ B) :
    Types J d n B (application n pos funcPos argPos func arg)
      (application n pos funcPos argPos func' arg') := by
  simp only [upTo_append, List.append_subset] at h
  unfold Elaborate.application
  rw [type_eq hfunc, type_eq harg]
  refine L.after (L.functionType hn (by simp_all [exprVars])) fun (param, result) => ?_
  have hunify : J _ _ d (upTo n (param.vars ++ result.vars) ++ B)
      (Elaborate.liftStore (Store.tryUnify param arg.type).run)
      (Elaborate.liftStore (Store.tryUnify param arg.type).run) id fun _ => [] := by
    refine L.liftStore (Store.quiet_tryUnify param arg.type) fun _ s hs _ hbs => ⟨?_, nofun⟩
    have hvars : ∀ v ∈ param.vars ++ arg.type.vars, s.WithinVar n v := by
      refine hbs.upTo ?_
      simp_all [exprVars]
    rw [List.forall_mem_append] at hvars
    exact Store.tryUnify_advances hs (fun v hv => (hvars.1 v hv).1) fun v hv => (hvars.2 v hv).1
  refine L.after hunify fun r => ?_
  cases r with
  | ok _ => exact L.plain rfl rfl (by simp)
  | error e =>
    refine L.after L.store fun s => L.after (L.isCurriedCall (n := n) harg ?_) fun _ =>
      L.fail _ _ (Problem.missing?_ofUnifyError _ _ _)
    simp [h.2]

theorem compileRules {rules rules' : List Typed.Rule} (h : rules'.map ruleView = rules.map ruleView)
    (site : MatchSite) (scrutinee : Ty) :
    J Match.Result Match.Result d B (compileRules site pos rules scrutinee)
      (compileRules site pos rules' scrutinee) id fun _ => [] := by
  unfold Elaborate.compileRules
  rw [show (rules'.map fun r => (⟨r.pattern, r.guard.isSome⟩ : Match.Clause Note)) = _ from h]
  exact L.compileMatch _ _ _

theorem conditional (h : Scope inner Q d n B exact env env') {test test' whenTrue whenTrue' whenFalse
    whenFalse' : Part} (htest : test'.pos = test.pos) (htrue : whenTrue'.pos = whenTrue.pos)
    (hfalse : whenFalse'.pos = whenFalse.pos)
    (hparts : ∀ C, B ⊆ C → Types J d n C test.elaborate test'.elaborate ∧
      Types J d n C whenTrue.elaborate whenTrue'.elaborate ∧
      Types J d n C whenFalse.elaborate whenFalse'.elaborate) :
    Types J d n B (conditional env pos test whenTrue whenFalse)
      (conditional env' pos test' whenTrue' whenFalse') := by
  unfold Elaborate.conditional
  rw [htest, htrue, hfalse]
  refine L.after (L.constructor h.alike h.within "true") fun trueCon => ?_
  refine L.after (L.constructor h.alike (h.within.mono (by simp)) "false") fun falseCon => ?_
  refine L.bind (hparts _ (by simp)).1 fun c c' hc => ?_
  rw [type_eq hc]
  refine L.after (L.unify n ?_) fun _ => ?_
  · simp [exprVars, Ty.bool, Ty.const, Ty.vars, Ty.varsList]
  refine L.bind (hparts _ (by grind)).2.1 fun a a' ha => ?_
  refine L.bind (hparts _ (by grind)).2.2 fun b b' hb => ?_
  rw [type_eq ha, type_eq hb]
  refine L.after (L.unify n (by grind [exprVars])) fun _ => ?_
  exact L.after (L.compileRules rfl _ _) fun m => L.plain rfl rfl (by grind [exprVars])

omit L in
/-- A list of expressions is seen by the place of its first element. -/
theorem exprView_listOf {es es' : List Typed.Expr} (h : es'.map exprView = es.map exprView)
    (nil cons : Con) (list pair func : Ty) : ∃ place,
    exprView (listOf pos nil cons list pair func es) = (⟨place, list⟩, none) ∧
      exprView (listOf pos nil cons list pair func es') = (⟨place, list⟩, none) := by
  match es, es', h with
  | [], [], _ => exact ⟨pos, rfl, rfl⟩
  | e :: _, e' :: _, h =>
    have hpos : e'.pos = e.pos := congrArg (·.1.pos) (List.cons.inj h).1
    refine ⟨e.pos, rfl, ?_⟩
    rw [← hpos]
    rfl

theorem listExpr (h : Scope inner Q d n B exact env env')
    {elements elements' : Ty → ElaborateM (List Typed.Expr)}
    (helements : ∀ elem C, B ⊆ C → upTo n elem.vars ⊆ C →
      J (List Typed.Expr) _ d C (elements elem) (elements' elem) (List.map exprView) fun _ => []) :
    Types J d n B (listExpr env n pos elements) (listExpr env' n pos elements') := by
  unfold Elaborate.listExpr
  refine L.after (L.constructor h.alike h.within "nil") fun nilCon => ?_
  refine L.after (L.constructor h.alike (h.within.mono (by simp)) "::") fun consCon => ?_
  refine L.after (L.freshType (L.base_of_inner h.level)) fun elem => ?_
  refine L.after (L.mkCon (n := n) (by simp [Ty.varsList])) fun list => ?_
  refine L.bind (helements elem _ (by grind) (by simp)) fun es es' hes => ?_
  refine L.after (L.mkTuple (n := n) (by simp [Ty.varsList])) fun pair => ?_
  refine L.after (L.mkArrow (n := n) (by simp)) fun func => ?_
  obtain ⟨place, hview, hview'⟩ := exprView_listOf hes nilCon.1 consCon.1 list pair func
  exact L.plain hview hview' (by grind)

theorem selector (hn : base n) (label : String) :
    Types J d n B (selector n pos label) (selector n pos label) := by
  unfold Elaborate.selector
  refine L.after (L.freshType hn) fun field => L.after (L.freshType hn) fun rest => ?_
  refine L.after (L.mkRecord (n := n) (by simp [Ty.varsFields])) fun record => ?_
  exact L.after (L.mkArrow (n := n) (by grind)) fun t => L.plain rfl rfl (by simp)

/-! ## Forms of declarations -/

theorem bindScheme (hn : base n) (hover : env.Over n B) (ht : upTo l t.vars ⊆ B) (isValue : Bool) :
    J Scheme Scheme d B (bindScheme env pos n t isValue)
      (bindScheme env' pos n t isValue) id fun σ => upTo n σ.type.vars := by
  have hrestrict : J _ _ d B (Elaborate.liftStore (modify fun s => s.restrict n t))
      (Elaborate.liftStore (modify fun s => s.restrict n t)) id fun _ => upTo n t.vars := by
    refine L.liftStore (Store.quiet_restrict n t) fun hbase s hs _ hbs => ?_
    have hlow : Level.linked ≤ n := Int.le_trans (by decide) (hbase n hn)
    obtain ⟨hlowered, hwithin⟩ := Store.restrict_lowered hlow fun v hv => (hbs.upTo ht v hv).1
    exact ⟨hlowered.advances hs, Store.keeps_upTo.mpr hwithin⟩
  unfold Elaborate.bindScheme
  exact ite (L.generalize hover ht) (L.after hrestrict fun _ => L.pure rfl (by simp [Scheme.mono]))

/-- Declarations are made at the levels `base`. -/
structure DeclScope (base : Int → Prop) (Q : Env → Prop) (n : Int) (B : List Bound) (exact : Bool)
    (env env' : Env) : Prop where
  level : base n
  known : Q env
  alike : env.Alike exact env'
  within : env.Over n B

omit L in
theorem DeclScope.mono (h : DeclScope base Q n B exact env env') (hsub : B ⊆ C) :
    DeclScope base Q n C exact env env' :=
  ⟨h.level, h.known, h.alike, h.within.mono hsub⟩

omit L in
theorem DeclScope.forget (h : DeclScope base Q n B exact env env') :
    DeclScope base (fun _ => True) n B exact env env' :=
  ⟨h.level, trivial, h.alike, h.within⟩

/-- What is declared is elaborated one level deeper. -/
theorem inside (h : DeclScope base Q n B exact env env') (hd : d ≠ 0) :
    Scope inner Q d (n + 1) (upTo (n + 1) env.vars ++ B) exact env env' :=
  ⟨hd, L.inner_succ h.level, h.known, h.alike, Env.over_vars⟩

theorem valueDecl (h : DeclScope base Q n B exact env env') (hd : d ≠ 0) (pattern : Source.Pattern)
    (isValue : Bool) {expr expr' : Typed.Expr} (hview : exprView expr' = exprView expr)
    (hexpr : upTo (n + 1) (exprVars expr) ⊆ B) :
    Makes J d n B exact (valueDecl env n pos pattern isValue expr)
      (valueDecl env' n pos pattern isValue expr') := by
  unfold Elaborate.valueDecl
  rw [type_eq hview]
  refine L.deeper h.within ?_
  refine L.after (L.collected (L.elaboratePattern pattern (L.inside h hd))) fun (p, vars) => ?_
  refine L.after (L.unify (n + 1) (by grind [exprVars])) fun _ => ?_
  refine L.after (L.compileMatch _ _ _) fun m => ?_
  have hbindings : ∀ C, env.Over n C → upTo (n + 1) (Ty.varsFields vars) ⊆ C →
      J (List Binding) (List Binding) d C
        (vars.mapM fun v => do
          return (⟨v.1, ← Elaborate.bindScheme env pos n v.2 isValue⟩ : Binding))
        (vars.mapM fun v => do
          return (⟨v.1, ← Elaborate.bindScheme env' pos n v.2 isValue⟩ : Binding)) id
        (List.flatMap fun b => upTo n b.scheme.type.vars) := by
    intro C hover hvars
    refine L.mapM_same fun v hv C' hcs => ?_
    refine L.after (L.bindScheme (l := n + 1) h.level (hover.mono hcs) ?_ isValue) fun σ => ?_
    · refine List.Subset.trans (upTo_mono ?_) (List.Subset.trans hvars hcs)
      exact fun x hx => Ty.mem_varsFields.mpr ⟨v, hv, hx⟩
    · exact L.pure rfl (List.subset_append_left _ _)
  refine L.after (hbindings _ (h.within.mono (by grind)) (by grind)) fun bindings => ?_
  refine L.after (L.traceBindings bindings) fun _ => L.pure ?_ ?_
  · exact congrArg (·, bindings) (Env.view_eq_iff.mpr
      (h.alike.foldl (fun b _ _ h => h.bind b.name b.scheme) bindings))
  · refine Env.Over.foldl (h.within.mono (by grind)) fun b hb env henv => henv.bind ?_
    refine List.Subset.trans ?_ (List.subset_append_of_subset_right _ (List.subset_append_left _ _))
    exact fun x hx => List.mem_flatMap.mpr ⟨b, hb, hx⟩

theorem recursiveDecl (h : DeclScope base Q n B exact env env') (hd : d ≠ 0)
    (pattern : Source.Pattern) (isFn : Bool) (exprPos : Pos)
    {expr : Env → ElaborateM Typed.Expr}
    (hexpr : ∀ C scope scope', Scope inner Q d (n + 1) C exact scope scope' →
      Types J d (n + 1) C (expr scope) (expr scope')) :
    Makes J d n B exact (recursiveDecl env n pos pattern isFn exprPos expr)
      (recursiveDecl env' n pos pattern isFn exprPos expr) := by
  unfold Elaborate.recursiveDecl
  rw [recursiveName?_congr h.alike]
  cases recursiveName? env pattern with
  | none => exact L.fail _ _ rfl
  | some r =>
    obtain ⟨name, annot⟩ := r
    have hlast : ∀ t C, upTo (n + 1) env.vars ++ B ⊆ C → upTo (n + 1) t.vars ⊆ C →
        Makes J d n C exact (do
          let fn ← expr (env.bind name (.mono t))
          Elaborate.unify exprPos t fn.type
          let σ ← Elaborate.generalize env pos n t
          Elaborate.traceBindings [⟨name, σ⟩]
          return ⟨some (.functions pos [⟨name, σ, fn⟩]), env.bind name σ, [⟨name, σ⟩]⟩)
        (do
          let fn ← expr (env'.bind name (.mono t))
          Elaborate.unify exprPos t fn.type
          let σ ← Elaborate.generalize env' pos n t
          Elaborate.traceBindings [⟨name, σ⟩]
          return ⟨some (.functions pos [⟨name, σ, fn⟩]), env'.bind name σ, [⟨name, σ⟩]⟩) := by
      intro t C hcs ht
      have hscope := (L.inside h hd).mono hcs
      refine L.bind (hexpr C _ _ ⟨hd, hscope.level, L.inherited.bind _ _ h.known,
        h.alike.bind name _, hscope.within.bind ht⟩)
        fun fn fn' hfn => ?_
      rw [type_eq hfn]
      refine L.after (L.unify (n + 1) (by grind [exprVars])) fun _ => ?_
      refine L.after (L.generalize (h.within.mono (by grind)) (by grind : upTo (n + 1) t.vars ⊆ _))
        fun σ => L.after (L.traceBindings _) fun _ => L.pure ?_ ?_
      · exact congrArg (·, _) (Env.view_eq_iff.mpr (h.alike.bind name σ))
      · exact (h.within.mono (by grind)).bind (by simp)
    cases isFn with
    | false => exact L.fail_bind
    | true =>
      simp only [Bool.not_true, Bool.false_eq_true, if_false]
      refine L.deeper h.within (L.after (L.freshType (L.base_of_inner (L.inner_succ h.level)))
        fun t => ?_)
      cases annot with
      | none => exact hlast t _ (by simp) (by simp)
      | some annot =>
        refine L.after (L.annotation ((L.inside h hd).mono (by simp)) annot) fun expected => ?_
        exact L.after (L.unify (n + 1) (by simp)) fun _ => hlast t _ (by grind) (by grind)

/-! ## Groups of functions -/

/-- The elaboration of a function is judged wherever it takes place. -/
def Judged (J : Judgement) (inner : Int → Prop) (Q : Env → Prop) (d : Nat) (f : Member) : Prop :=
  ∀ {n : Int} {B : List Bound} {exact : Bool} {env env' : Env},
    Scope inner Q d n B exact env env' → Types J d n B (f.elaborate env n) (f.elaborate env' n)

theorem checkNames (henv : env.Alike exact env') (earlier : List String) (ms : List Member) :
    J Unit Unit d B (checkNames env earlier ms) (checkNames env' earlier ms) id fun _ => [] := by
  induction ms generalizing earlier with
  | nil => exact L.pure rfl (List.nil_subset _)
  | cons f ms ih =>
    unfold Elaborate.checkNames
    rw [henv.isConstructor]
    exact ite L.fail_bind (ite L.fail_bind (ih _))

theorem elaborateMembers (h : Scope inner Q d (n + 1) B exact env env')
    {component : List (Nat × Member × Ty)} (hcomponent : ∀ e ∈ component, Judged J inner Q d e.2.1)
    (htypes : ∀ e ∈ component, upTo (n + 1) e.2.2.vars ⊆ B) :
    J (List (Nat × Member × Ty × Typed.Expr)) _ d B (elaborateMembers env n component)
      (elaborateMembers env' n component) (List.map fun r => (r.1, r.2.1, r.2.2.1))
      (List.flatMap fun r => upTo (n + 1) r.2.2.1.vars) := by
  refine L.mapM fun (i, f, t) he C hcs => ?_
  have ht := List.Subset.trans (htypes _ he) hcs
  refine L.bind (hcomponent _ he (h.mono hcs)) fun fn fn' hfn => ?_
  rw [type_eq hfn]
  refine L.after (L.unify (n + 1) (by grind [exprVars])) fun _ => L.pure rfl ?_
  exact List.subset_append_of_subset_right _ (List.subset_append_of_subset_right _ ht)

theorem generalizeMembers (h : DeclScope base (fun _ => True) n B exact env env')
    {rs rs' : List (Nat × Member × Ty × Typed.Expr)}
    (hview : (rs'.map fun r => (r.1, r.2.1, r.2.2.1)) = rs.map fun r => (r.1, r.2.1, r.2.2.1))
    (hrs : ∀ r ∈ rs, upTo (n + 1) r.2.2.1.vars ⊆ B) :
    J (Env × List (Nat × Typed.FunBinding)) _ d B (generalizeMembers n env rs)
      (generalizeMembers n env' rs') (groupView exact) fun r => upTo n r.1.vars := by
  induction rs generalizing rs' env env' B with
  | nil =>
    rw [List.map_eq_nil_iff.mp hview]
    exact L.pure (congrArg (·, _) (Env.view_eq_iff.mpr h.alike)) h.within
  | cons r rs ih =>
    obtain ⟨r', rs', rfl, hr, hrest⟩ := List.map_eq_cons_iff.mp hview
    obtain ⟨i, f, t, fn⟩ := r
    obtain ⟨i', f', t', fn'⟩ := r'
    cases hr
    rw [List.forall_mem_cons] at hrs
    unfold Elaborate.generalizeMembers
    refine L.after (L.generalize h.within hrs.1) fun σ => ?_
    refine L.bind (ih ⟨h.level, trivial, h.alike.bind f.name σ,
      (h.within.mono (by simp)).bind (by simp)⟩ hrest fun r hr =>
      List.subset_append_of_subset_right _ (hrs.2 r hr)) fun done done' hdone => ?_
    refine L.pure ?_ (List.subset_append_left _ _)
    obtain ⟨henv, hfs⟩ := Prod.mk.inj hdone
    exact congrArg₂ (fun env fs => (env, (i, (⟨f.name, σ⟩ : Binding)) :: fs)) henv hfs

/-- The functions are kept when they are given types, so all that follows is about them. -/
theorem elaborateTyped (h : DeclScope base Q n B exact env env') (hd : d ≠ 0)
    (rest : List (Nat × Member)) (done : List (Nat × Member × Ty)) (C : List Bound)
    (hrest : ∀ e ∈ rest, Judged J inner Q d e.2) (hdone : ∀ e ∈ done, Judged J inner Q d e.2.1)
    (hcs : upTo (n + 1) env.vars ++ B ⊆ C) (htypes : ∀ e ∈ done, upTo (n + 1) e.2.2.vars ⊆ C) :
    J (Env × List (Nat × Typed.FunBinding)) _ d C (do
      let typed ← rest.mapM fun (i, f) => do return (i, f, ← Elaborate.freshType (n + 1))
      let typed := done ++ typed
      let scope := typed.foldl (fun env (_, f, t) => env.bind f.name (.mono t)) env
      Elaborate.generalizeMembers n env (← Elaborate.elaborateMembers scope n typed)) (do
      let typed ← rest.mapM fun (i, f) => do return (i, f, ← Elaborate.freshType (n + 1))
      let typed := done ++ typed
      let scope := typed.foldl (fun env (_, f, t) => env.bind f.name (.mono t)) env'
      Elaborate.generalizeMembers n env' (← Elaborate.elaborateMembers scope n typed))
      (groupView exact) fun r => upTo n r.1.vars := by
  induction rest generalizing done C with
  | nil =>
    simp only [List.mapM_nil, pure_bind, List.append_nil]
    have hin := (L.inside h hd).mono hcs
    have hscope : Scope inner Q d (n + 1) C exact
        (done.foldl (fun env (_, f, t) => env.bind f.name (.mono t)) env)
        (done.foldl (fun env (_, f, t) => env.bind f.name (.mono t)) env') :=
      ⟨hd, hin.level,
        L.inherited.foldl (fun e : Nat × Member × Ty => (e.2.1.name, .mono e.2.2)) done h.known,
        h.alike.foldl (fun e _ _ h => h.bind e.2.1.name (.mono e.2.2)) done,
        hin.within.foldl fun e he env henv => henv.bind (htypes e he)⟩
    refine L.bind (L.elaborateMembers hscope hdone htypes) fun rs rs' hrs => ?_
    refine L.generalizeMembers (h.mono (by grind)).forget hrs fun r hr => ?_
    exact List.subset_append_of_subset_left _ fun x hx => List.mem_flatMap.mpr ⟨r, hr, hx⟩
  | cons e rest ih =>
    rw [List.forall_mem_cons] at hrest
    simp only [List.mapM_cons, bind_assoc, pure_bind]
    refine L.after (L.freshType (L.base_of_inner (L.inner_succ h.level))) fun t => ?_
    have hmore := ih (done ++ [(e.1, e.2, t)]) (upTo (n + 1) t.vars ++ C) hrest.2
      (List.forall_mem_append.mpr ⟨hdone, List.forall_mem_singleton.mpr hrest.1⟩) (by grind)
      (List.forall_mem_append.mpr ⟨fun x hx => List.subset_append_of_subset_right _ (htypes x hx),
        List.forall_mem_singleton.mpr (List.subset_append_left _ _)⟩)
    simpa only [List.append_assoc, List.singleton_append] using hmore

theorem elaborateComponent (h : DeclScope base Q n B exact env env') (hd : d ≠ 0)
    (component : List (Nat × Member)) (hcomponent : ∀ e ∈ component, Judged J inner Q d e.2) :
    J (Env × List (Nat × Typed.FunBinding)) _ d B (elaborateComponent env n component)
      (elaborateComponent env' n component) (groupView exact) fun r => upTo n r.1.vars := by
  exact L.deeper h.within (L.elaborateTyped h hd component [] _ hcomponent nofun
    (List.Subset.refl _) nofun)

theorem elaborateComponents {fs : List Member} (hfs : ∀ f ∈ fs, Judged J inner Q d f) (hd : d ≠ 0)
    (components : List (List Nat)) (h : DeclScope base Q n B exact env env') :
    J (Env × List (Nat × Typed.FunBinding)) _ d B (elaborateComponents n fs env components)
      (elaborateComponents n fs env' components) (groupView exact) fun r => upTo n r.1.vars := by
  induction components generalizing env env' B with
  | nil => exact L.pure (congrArg (·, _) (Env.view_eq_iff.mpr h.alike)) h.within
  | cons c C ih =>
    have hcomponent : ∀ e ∈ c.filterMap (fun i => (fs[i]?).map fun f => (i, f)),
        Judged J inner Q d e.2 := by
      intro e he
      obtain ⟨i, -, hi⟩ := List.mem_filterMap.mp he
      obtain ⟨f, hf, rfl⟩ := Option.map_eq_some_iff.mp hi
      exact hfs f (List.mem_of_getElem? hf)
    unfold Elaborate.elaborateComponents
    refine L.chain (L.elaborateComponent h hd _ hcomponent) fun r r' hmade hr => ?_
    obtain ⟨henv, hdone⟩ := Prod.mk.inj hr
    refine L.bind (ih ⟨h.level, L.inherited.component hmade h.known, Env.view_eq_iff.mp henv,
      List.subset_append_left _ _⟩)
      fun rest rest' hrest => L.pure ?_ (List.subset_append_left _ _)
    obtain ⟨henv', hrest⟩ := Prod.mk.inj hrest
    exact Prod.ext henv' (by simp only [groupView, List.map_append, hdone, hrest])

theorem functionsDecl (h : DeclScope base Q n B exact env env') (hd : d ≠ 0) {fs : List Member}
    (hfs : ∀ f ∈ fs, Judged J inner Q d f) (components : List (List Nat)) :
    Makes J d n B exact (functionsDecl env n pos fs components)
      (functionsDecl env' n pos fs components) := by
  unfold Elaborate.functionsDecl
  refine L.after (L.checkNames h.alike [] fs) fun _ => L.after (L.trace _ _) fun _ => ?_
  refine L.bind (L.elaborateComponents hfs hd components (h.mono (by simp))) fun r r' hr => ?_
  obtain ⟨henv, hdone⟩ := Prod.mk.inj hr
  have hbindings : ∀ done : List (Nat × Typed.FunBinding),
      (((List.range fs.length).filterMap fun i => done.lookup i).map fun f =>
        (⟨f.name, f.scheme⟩ : Binding)) = (List.range fs.length).filterMap fun i =>
          (done.map fun f => (f.1, (⟨f.2.name, f.2.scheme⟩ : Binding))).lookup i := by
    intro done
    simp only [List.map_filterMap, lookup_map_snd]
  simp only [hbindings, hdone]
  refine L.after (L.traceBindings _) fun _ => L.pure (congrArg (·, _) henv) ?_
  exact List.subset_append_left _ _

/-! ## Clauses -/

theorem bindVars (h : Scope inner Q d n B exact env env') {vars : PatternVars}
    (hvars : upTo n (Ty.varsFields vars) ⊆ B) :
    Scope inner Q d n B true (bindVars env.scope vars) (bindVars env'.scope vars) :=
  ⟨h.depth, h.level, L.inherited.foldl (fun v : String × Ty => (v.1, .mono v.2)) vars
      (L.inherited.scope h.known), h.alike.scope.foldl (fun v _ _ h => h.bind v.1 _) vars,
    h.within.scope.foldl fun v hv _ henv => henv.bind (List.Subset.trans
      (upTo_mono fun _ hx => Ty.mem_varsFields.mpr ⟨v, hv, hx⟩) hvars)⟩

theorem clauseBody (bodyPos pos : Pos) (scrutinee : Ty) (ps : List (Pattern Note)) {result : Ty}
    {body body' : ElaborateM Typed.Expr} (hresult : upTo n result.vars ⊆ B)
    (hbody : Types J d n B body body') :
    J Typed.Rule _ d B (do
      let e ← body
      Elaborate.unify bodyPos result e.type
      match ps with
      | [p] => return (⟨p, none, e⟩ : Typed.Rule)
      | ps => return ⟨.tuple ⟨pos, scrutinee⟩ ps, none, e⟩) (do
      let e ← body'
      Elaborate.unify bodyPos result e.type
      match ps with
      | [p] => return (⟨p, none, e⟩ : Typed.Rule)
      | ps => return ⟨.tuple ⟨pos, scrutinee⟩ ps, none, e⟩) ruleView fun _ => [] := by
  refine L.bind hbody fun e e' he => ?_
  rw [type_eq he]
  refine L.after (L.unify n (by grind [exprVars])) fun _ => ?_
  split <;> exact L.pure rfl (List.nil_subset _)

theorem functionClause (h : Scope inner Q d n B exact env env') {name : String} {params : List Ty}
    {scrutinee result : Ty} {patterns : List Source.Pattern} {annot : Option TypeExpr}
    {bodyPos : Pos} {body : Env → ElaborateM Typed.Expr}
    (hparams : upTo n (Ty.varsList params) ⊆ B) (hresult : upTo n result.vars ⊆ B)
    (hbody : ∀ C scope scope', Scope inner Q d n C true scope scope' →
      Types J d n C (body scope) (body scope')) :
    J Typed.Rule _ d B
      (functionClause env n name params scrutinee result pos patterns annot bodyPos body)
      (functionClause env' n name params scrutinee result pos patterns annot bodyPos body)
      ruleView fun _ => [] := by
  unfold Elaborate.functionClause
  refine ite L.fail_bind (L.after (L.collected (L.elaborateParams patterns params h hparams)) ?_)
  rintro ⟨ps, vars⟩
  have hlast : ∀ C, B ⊆ C → upTo n (Ty.varsFields vars) ⊆ C → _ := fun C hcs hvars =>
    L.clauseBody bodyPos pos scrutinee ps (List.Subset.trans hresult hcs)
      (hbody C _ _ (L.bindVars (h.mono hcs) hvars))
  cases annot with
  | none => exact hlast _ (by simp) (by simp)
  | some annot =>
    refine L.after (L.annotation (h.mono (by simp)) annot) fun expected => ?_
    exact L.after (L.unify n (by grind)) fun _ => hlast _ (by grind) (by grind)

/-- Nested functions, whose parameters may have other names. -/
theorem curried {params params' : List (String × Ty)}
    (hview : params'.map Prod.snd = params.map Prod.snd) {body body' : Typed.Expr}
    (hbody : exprView body' = exprView body)
    (h : upTo n (Ty.varsList (params.map Prod.snd) ++ exprVars body) ⊆ B) :
    Types J d n B (curried pos params body) (curried pos params' body') := by
  induction params generalizing params' with
  | nil =>
    rw [List.map_eq_nil_iff.mp hview]
    exact L.pure hbody (by simpa [Ty.varsList] using h)
  | cons p params ih =>
    obtain ⟨p', params', rfl, hp, hrest⟩ := List.map_eq_cons_iff.mp hview
    obtain ⟨x, t⟩ := p
    obtain ⟨x', t'⟩ := p'
    cases hp
    simp only [List.map_cons, Ty.varsList, List.append_assoc, upTo_append, List.append_subset] at h
    unfold Elaborate.curried
    refine L.bind (ih hrest (by simp [h])) fun e e' he => ?_
    rw [type_eq he]
    exact L.after (L.mkArrow (n := n) (by grind [exprVars])) fun t => L.plain rfl rfl (by simp)

/-! ## Types -/

/-- The variables of a datatype. -/
def datatypeVars (d : Datatype) : List Var :=
  d.params ++ d.constructors.flatMap fun c => c.arg.toList.flatMap Ty.vars

omit L in
theorem over_bindDatatypes {ds : List Datatype} (henv : env.Over n B)
    (hds : ∀ dt ∈ ds, upTo n dt.params ⊆ B) : (ds.foldl bindDatatype env).Over n B :=
  henv.foldl fun dt hdt _ henv => henv.bindType (hds dt hdt)

omit L in
theorem alike_bindDatatypes (henv : env.Alike exact env') (ds : List Datatype) :
    (ds.foldl bindDatatype env).Alike exact (ds.foldl bindDatatype env') :=
  henv.foldl (fun dt _ _ h => h.bindType dt.name _) ds

/-- The types in declarations of types are quantified without looking at the environment. -/
theorem quantifyAll (h : upTo n t.vars ⊆ B) :
    J PUnit PUnit d B (discard (Elaborate.liftStore (Store.generalize 0 t)))
      (discard (Elaborate.liftStore (Store.generalize 0 t))) id fun _ => [] := by
  have hlift : J Scheme Scheme d B (Elaborate.liftStore (Store.generalize 0 t))
      (Elaborate.liftStore (Store.generalize 0 t)) id fun _ => [] := by
    refine L.liftStore (Store.quiet_generalize 0 t) fun _ s hs _ hbs => ⟨?_, nofun⟩
    exact (Store.generalize_quantifies hs (fun v hv => (hbs.upTo h v hv).1) 0).lowered.advances hs
  exact L.after hlift fun _ => L.pure rfl (List.nil_subset _)

theorem declareDatatypes (hn : base n) (earlier : List String) (bindings : List DatatypeBinding) :
    J (List (DatatypeBinding × LabelMap Var × Datatype)) _ d B (declareDatatypes earlier bindings)
      (declareDatatypes earlier bindings) id
      (List.flatMap fun r => upTo n (r.2.1.map (·.2) ++ datatypeVars r.2.2)) := by
  induction bindings generalizing earlier B with
  | nil => exact L.pure rfl (List.nil_subset _)
  | cons b bindings ih =>
    unfold Elaborate.declareDatatypes
    refine ite L.fail_bind (L.after (L.typeParams hn b.params [] (by simp)) fun params => ?_)
    have hlast : ∀ id : Nat, J _ _ d (upTo n (params.map (·.2)) ++ B) (do
        let rest ← Elaborate.declareDatatypes (b.name :: earlier) bindings
        return (b, params, (⟨id, b.name, params.map (·.2), false, []⟩ : Datatype)) :: rest) (do
        let rest ← Elaborate.declareDatatypes (b.name :: earlier) bindings
        return (b, params, (⟨id, b.name, params.map (·.2), false, []⟩ : Datatype)) :: rest)
        (fun r => r) (List.flatMap fun r => upTo n (r.2.1.map (·.2) ++ datatypeVars r.2.2)) :=
      fun id => L.after (ih _) fun rest => L.pure rfl (by simp [datatypeVars])
    exact L.countDatatype hlast

theorem argument (hn : base n) (henv : env.Alike exact env') (hover : env.Over n B)
    {params : LabelMap Var} (hparams : upTo n (params.map (·.2)) ⊆ B) (arg : Option TypeExpr) :
    J (Option Ty) (Option Ty) d B (arg.mapM (Elaborate.elaborateType env n (some params)))
      (arg.mapM (Elaborate.elaborateType env' n (some params))) id
      fun a => upTo n (a.toList.flatMap Ty.vars) := by
  refine L.mono (L.optionMapM fun t => L.elaborateType hn henv t hover
    (show Fits inner d n B (some params) from hparams)) (fun _ _ h => h) fun a => ?_
  cases a <;> simp

section Declarations

variable (h : DeclScope base (fun _ => True) n B exact env env')
include h

theorem declareConstructors {params : LabelMap Var} (hparams : upTo n (params.map (·.2)) ⊆ B)
    (seen : List String) {dt : Datatype} (hdt : upTo n (datatypeVars dt) ⊆ B)
    (cons : List ConBinding) :
    J (List String × Datatype) _ d B (declareConstructors env n params seen dt cons)
      (declareConstructors env' n params seen dt cons) id fun r => upTo n (datatypeVars r.2) := by
  induction cons generalizing seen dt B with
  | nil => exact L.pure rfl hdt
  | cons c cons ih =>
    unfold Elaborate.declareConstructors
    refine ite L.fail_bind
      (L.after (L.argument h.level h.alike h.within hparams c.arg) fun arg => ?_)
    have hquantify : J PUnit PUnit d (upTo n (arg.toList.flatMap Ty.vars) ++ B)
        (arg.forM fun t => discard (Elaborate.liftStore (Store.generalize 0 t)))
        (arg.forM fun t => discard (Elaborate.liftStore (Store.generalize 0 t))) id
        fun _ => [] := by
      cases arg with
      | none => exact L.pure rfl (List.nil_subset _)
      | some t => exact L.quantifyAll (n := n) (by simp)
    refine L.after hquantify fun _ => ih (h.mono (by simp)) (by simp [hparams]) _ ?_
    simp_all [datatypeVars, Datatype.add]

theorem completeDatatypes (seen : List String)
    {drafts : List (DatatypeBinding × LabelMap Var × Datatype)}
    (hdrafts : ∀ r ∈ drafts, upTo n (r.2.1.map (·.2) ++ datatypeVars r.2.2) ⊆ B) :
    J (List Datatype) _ d B (completeDatatypes env n seen drafts)
      (completeDatatypes env' n seen drafts) id
      (List.flatMap fun dt => upTo n (datatypeVars dt)) := by
  induction drafts generalizing seen B with
  | nil => exact L.pure rfl (List.nil_subset _)
  | cons r drafts ih =>
    obtain ⟨b, params, dt⟩ := r
    rw [List.forall_mem_cons, upTo_append, List.append_subset] at hdrafts
    unfold Elaborate.completeDatatypes
    refine L.after (L.declareConstructors h hdrafts.1.1 seen hdrafts.1.2 b.constructors)
      fun (seen', dt') => ?_
    refine L.after (ih (h.mono (by simp)) seen' fun r hr =>
      List.subset_append_of_subset_right _ (hdrafts.2 r hr)) fun dts => L.pure rfl (by simp)

theorem datatypesDecl (bindings : List DatatypeBinding) :
    Makes J d n B exact (datatypesDecl env n pos bindings)
      (datatypesDecl env' n pos bindings) := by
  unfold Elaborate.datatypesDecl
  refine L.after (L.declareDatatypes h.level [] bindings) fun drafts => ?_
  have hdrafts : ∀ r ∈ drafts, upTo n (r.2.1.map (·.2) ++ datatypeVars r.2.2) ⊆
      drafts.flatMap (fun r => upTo n (r.2.1.map (·.2) ++ datatypeVars r.2.2)) ++ B :=
    fun r hr => List.subset_append_of_subset_left _ fun x hx => List.mem_flatMap.mpr ⟨r, hr, hx⟩
  have hnamed : DeclScope base (fun _ => True) n
      (drafts.flatMap (fun r => upTo n (r.2.1.map (·.2) ++ datatypeVars r.2.2)) ++ B) exact
      ((drafts.map (·.2.2)).foldl bindDatatype env)
      ((drafts.map (·.2.2)).foldl bindDatatype env') := by
    refine ⟨h.level, trivial, alike_bindDatatypes h.alike _,
      over_bindDatatypes (h.within.mono (by simp)) ?_⟩
    refine List.forall_mem_map.mpr fun r hr => List.Subset.trans ?_ (hdrafts r hr)
    simp [datatypeVars]
  refine L.after (L.completeDatatypes hnamed [] hdrafts) fun dts => ?_
  refine L.after (L.forM fun _ => L.trace _ _) fun _ => L.pure ?_ ?_
  · refine congrArg (·, _) (Env.view_eq_iff.mpr ((alike_bindDatatypes h.alike dts).foldl
      (fun dt _ _ h => h.foldl (fun c _ _ h => h.bindValue c.name _) dt.constructors) dts))
  · have hdts : ∀ dt ∈ dts, upTo n (datatypeVars dt) ⊆
        dts.flatMap (fun dt => upTo n (datatypeVars dt)) ++
          (drafts.flatMap (fun r => upTo n (r.2.1.map (·.2) ++ datatypeVars r.2.2)) ++ B) :=
      fun dt hdt => List.subset_append_of_subset_left _ fun x hx =>
        List.mem_flatMap.mpr ⟨dt, hdt, hx⟩
    have hparams : ∀ dt ∈ dts, upTo n dt.params ⊆ _ := fun dt hdt =>
      List.Subset.trans (upTo_mono (List.subset_append_left _ _)) (hdts dt hdt)
    refine Env.Over.foldl (over_bindDatatypes (h.within.mono (by simp)) hparams)
      fun dt hdt _ henv => henv.foldl fun c hc _ henv => henv.bindValue ?_
    refine List.Subset.trans (upTo_mono (Datatype.vars_scheme dt c)) (List.Subset.trans ?_
      (hdts dt hdt))
    refine upTo_mono (List.append_subset.mpr ⟨List.subset_append_left _ _,
      List.subset_append_of_subset_right _ fun x hx => List.mem_flatMap.mpr ⟨c, hc, hx⟩⟩)

theorem abbreviationDecl (params : List String) (name : String) (type : TypeExpr) :
    Makes J d n B exact (abbreviationDecl env n pos params name type)
      (abbreviationDecl env' n pos params name type) := by
  unfold Elaborate.abbreviationDecl
  refine L.after (L.typeParams h.level params [] (by simp)) fun params => ?_
  refine L.after (L.elaborateType h.level h.alike type (h.within.mono (by simp))
    (show Fits inner d n _ (some params) from List.subset_append_left _ _)) fun body => ?_
  refine L.after (L.quantifyAll (n := n) (by simp)) fun _ => L.pure ?_ ?_
  · exact congrArg (·, _) (Env.view_eq_iff.mpr (h.alike.bindType name _))
  · exact (h.within.mono (by simp)).bindType (List.subset_append_left _ _)

end Declarations

end Steps

/-! ## Forms that make up names or number exceptions -/

namespace AllSteps

variable {base inner : Int → Prop} {Q : Env → Prop} {J : Judgement} (L : AllSteps base inner Q J)
  {d : Nat} {B : List Bound} {n : Int} {exact : Bool} {env env' : Env} {pos : Pos}
include L

theorem function {param result : Ty} {rules rules' : List Typed.Rule}
    (hrules : rules'.map ruleView = rules.map ruleView)
    (h : upTo n (param.vars ++ result.vars) ⊆ B) :
    Types J d n B (function pos param result rules) (function pos param result rules') := by
  unfold Elaborate.function
  refine L.after (L.compileRules hrules _ _) fun m => ?_
  refine L.bind L.freshParam fun x x' _ => ?_
  exact L.after (L.mkArrow (n := n) h) fun t => L.plain rfl rfl (by simp)

theorem curriedFunction (hn : base n) {name : String} {arity : Nat}
    {clauses clauses' : List Ty → Ty → Ty → ElaborateM (List Typed.Rule)}
    (hclauses : ∀ params scrutinee result C, B ⊆ C → upTo n (Ty.varsList params) ⊆ C →
      upTo n result.vars ⊆ C →
      Rules J d C (clauses params scrutinee result) (clauses' params scrutinee result)) :
    Types J d n B (curriedFunction n pos name arity clauses)
      (curriedFunction n pos name arity clauses') := by
  unfold Elaborate.curriedFunction
  refine Steps.ite L.fail_bind (L.after (L.mapM_same fun _ _ C _ => L.freshType hn)
    fun params => ?_)
  rw [← upTo_varsList]
  refine L.after (L.mkTuple (n := n) (by simp)) fun scrutinee => ?_
  refine L.after (L.freshType hn) fun result => ?_
  refine L.bind (hclauses params scrutinee result _ (by grind) (by grind) (by simp))
    fun rules rules' hrules => ?_
  refine L.after (L.compileRules hrules _ _) fun m => ?_
  have hnamed : ∀ C, upTo n (Ty.varsList params) ⊆ C → J (List (String × Ty)) (List Ty) d C
      (params.mapM fun t => do return (← Elaborate.freshParam, t))
      (params.mapM fun t => do return (← Elaborate.freshParam, t)) (List.map Prod.snd)
      (List.flatMap fun p => upTo n p.2.vars) := by
    intro C hcs
    refine L.mapM fun t ht C' hcs' => L.bind L.freshParam fun x x' _ => L.pure rfl ?_
    rw [upTo_varsList] at hcs
    exact fun b hb => hcs' (hcs (List.mem_flatMap.mpr ⟨t, ht, hb⟩))
  refine L.bind (hnamed _ (by grind)) fun named named' hview => L.curried hview rfl ?_
  rw [upTo_append, upTo_varsList, List.flatMap_map, List.append_subset]
  refine ⟨List.subset_append_left _ _, ?_⟩
  show upTo n (result.vars ++ []) ⊆ _
  grind

theorem declareExceptions {exn : Datatype} (cons : List ConBinding)
    (h : Steps.DeclScope base (fun _ => True) n B exact env env') (hexn : upTo n exn.params ⊆ B) :
    J (Env × List (Con × Scheme)) _ d B (declareExceptions exn n env cons)
      (declareExceptions exn n env' cons) (fun r => r.1.view exact) fun r => upTo n r.1.vars := by
  induction cons generalizing env env' B with
  | nil => exact L.pure (Env.view_eq_iff.mpr h.alike) h.within
  | cons c cons ih =>
    unfold Elaborate.declareExceptions
    refine L.after (L.argument h.level h.alike h.within (by simp) c.arg) fun arg => ?_
    have hlast : ∀ made : Constructor, made.arg = arg →
        J (Env × List (Con × Scheme)) _ d (upTo n (arg.toList.flatMap Ty.vars) ++ B) (do
          let r ← Elaborate.declareExceptions exn n
            (env.bindValue c.name ⟨exn.scheme made, .exception (exn.con made true)⟩) cons
          return (r.1, (exn.con made true, exn.scheme made) :: r.2)) (do
          let r ← Elaborate.declareExceptions exn n
            (env'.bindValue c.name ⟨exn.scheme made, .exception (exn.con made true)⟩) cons
          return (r.1, (exn.con made true, exn.scheme made) :: r.2))
          (fun r => r.1.view exact) fun r => upTo n r.1.vars := by
      rintro made rfl
      refine L.bind (ih ⟨h.level, trivial, h.alike.bindValue c.name _,
        (h.within.mono (by simp)).bindValue ?_⟩ (by simp [hexn])) fun r r' hr =>
          L.pure hr (List.subset_append_left _ _)
      exact List.Subset.trans (upTo_mono (Datatype.vars_scheme exn made)) (by simp [hexn])
    exact L.countException fun tag => hlast ⟨c.name, tag, arg⟩ rfl

theorem exceptionsDecl (h : Steps.DeclScope base Q n B exact env env')
    (bindings : List ConBinding) : Makes J d n B exact (exceptionsDecl env n pos bindings)
      (exceptionsDecl env' n pos bindings) := by
  unfold Elaborate.exceptionsDecl
  rw [h.alike.type?]
  cases hexn : (env.type? "exn").bind TypeEntry.datatype? with
  | none => exact L.fail _ _ rfl
  | some exn =>
    obtain ⟨entry, hentry, hdatatype⟩ := Option.bind_eq_some_iff.mp hexn
    have hparams : upTo n exn.params ⊆ B := by
      have hover := h.within.type? hentry
      unfold TypeEntry.vars at hover
      unfold TypeEntry.datatype? at hdatatype
      cases hmeaning : entry.meaning with
      | datatype dt =>
        rw [hmeaning] at hover hdatatype
        cases hdatatype
        exact hover
      | _ =>
        rw [hmeaning] at hdatatype
        cases hdatatype
    refine L.bind (L.declareExceptions bindings h.forget hparams) fun r r' hr => ?_
    exact L.pure (congrArg (·, _) hr) (List.subset_append_left _ _)

end AllSteps

end Elaborate

end Typecase
