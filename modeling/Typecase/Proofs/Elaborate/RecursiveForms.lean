import Typecase.Proofs.Dependency.Components
import Typecase.Proofs.Elaborate.Generalization
import Typecase.Proofs.Elaborate.Positions
set_option autoImplicit false

/-!
# Two forms of recursive functions

A function of one parameter may be declared by clauses or as a recursive value.  Both forms do the
same to the store in the same order, so they come to the same up to positions.
-/

namespace Typecase.Elaborate

open Source

/-- A clause of a function of one parameter. -/
structure Branch where
  pos : Pos
  pattern : Source.Pattern
  body : Expr

/-- A branch as a clause of a function declaration. -/
def Branch.clause (b : Branch) : FunClause := ⟨b.pos, [b.pattern], none, b.body⟩

/-- A branch as a rule of a function expression. -/
def Branch.rule (b : Branch) : Rule := ⟨b.pos, b.pattern, none, b.body⟩

/-- Two functions that match their parameter alike and differ at most in positions. -/
inductive SameFunction : Typed.Expr → Typed.Expr → Prop
  | intro (pos pos' : Pos) (type param result : Ty) (name : String) (rules : List Typed.Rule)
      (decision : Match.Result) :
    SameFunction
      (.fn ⟨pos, type⟩ name (.case ⟨pos, result⟩ (.var ⟨pos, param⟩ name none) rules decision))
      (.fn ⟨pos', type⟩ name (.case ⟨pos', result⟩ (.var ⟨pos', param⟩ name none) rules decision))

theorem SameFunction.type {e e' : Typed.Expr} (h : SameFunction e e') : e.type = e'.type := by
  cases h
  rfl

/-- Two declarations that bind `f` alike, to functions that match alike. -/
inductive SameDeclaration (env : Env) (f : String) : Elaborated → Elaborated → Prop
  | intro (pos pos' : Pos) (σ : Scheme) {fn fn' : Typed.Expr} : SameFunction fn fn' →
    SameDeclaration env f ⟨some (.functions pos [⟨f, σ, fn⟩]), env.bind f σ, [⟨f, σ⟩]⟩
      ⟨some (.functions pos' [⟨f, σ, fn'⟩]), env.bind f σ, [⟨f, σ⟩]⟩

variable {cfg : Config} {env : Env} {level : Int} {f : String}

/-! ## Clauses -/

theorem alike_branch (param result : Ty) (b : Branch) :
    Alike cfg
      (functionClause env level f [param] param result b.pos [b.pattern] none b.body.pos
        fun scope => elaborateExpr scope level b.body)
      ((elaboratePattern env level b.pattern).run [] >>= fun (p, vars) => do
        unify p.pos param p.type
        let e ← elaborateExpr (bindVars env.scope vars) level b.body
        unify b.body.pos result e.type
        return ⟨p, none, e⟩) Eq := by
  have hparams : (elaborateParams env level [b.pattern] [param]).run [] =
      (elaboratePattern env level b.pattern).run [] >>= fun (p, vars) => do
        unify b.pattern.pos param p.type
        return ([p], vars) := by
    simp [elaborateParams]
  unfold functionClause
  rw [hparams]
  simp only [bind_assoc]
  refine .after (pervasive_unaffected.elaboratePattern trivial b.pattern []) ?_
  rintro ⟨p, vars⟩
  refine .bind (alike_unify _ _ _ _) fun _ _ _ => ?_
  exact .after (pervasive_unaffected.elaborateExpr trivial _ _) fun e =>
    .after (pervasive_unaffected.unify _ _) fun _ => .pure rfl

theorem alike_branches (param result : Ty) (bs : List Branch) :
    Alike cfg (elaborateClauses env level f [param] param result (bs.map Branch.clause))
      (elaborateRules env level param result (bs.map Branch.rule)) Eq := by
  induction bs with
  | nil => exact .pure rfl
  | cons b bs ih =>
    have hrules : elaborateRules env level param result ((b :: bs).map Branch.rule) =
        ((elaboratePattern env level b.pattern).run [] >>= fun (p, vars) => do
          unify p.pos param p.type
          let e ← elaborateExpr (bindVars env.scope vars) level b.body
          unify b.body.pos result e.type
          return ⟨p, none, e⟩) >>= fun rule => do
        let rest ← elaborateRules env level param result (bs.map Branch.rule)
        return rule :: rest := by
      simp [elaborateRules, Branch.rule]
    rw [hrules]
    exact .bind (alike_branch param result b) fun r r' hr =>
      .bind ih fun rest rest' hrest => .pure (hr ▸ hrest ▸ rfl)

/-! ## Functions -/

/-- A curried function of one parameter is a function. -/
theorem curriedFunction_one (pos : Pos)
    (clauses : List Ty → Ty → Ty → ElaborateM (List Typed.Rule)) :
    curriedFunction level pos f 1 clauses = (do
      let param ← freshType level
      let result ← freshType level
      let rules ← clauses [param] param result
      function pos param result rules) := by
  have htuple : ∀ t : Ty, liftStore (Ty.mkTuple [t]) = (pure t : ElaborateM Ty) := fun _ => rfl
  simp [curriedFunction, curried, function, htuple, Typed.Expr.type, Typed.Expr.note]

theorem alike_function (pos pos' : Pos) (param result : Ty) (rules : List Typed.Rule) :
    Alike cfg (function pos param result rules) (function pos' param result rules)
      SameFunction := by
  unfold function
  exact .bind (alike_compileMatch pos pos' .rules _ param) fun m m' hm =>
    .after pervasive_unaffected.freshParam fun name =>
      .after (pervasive_unaffected.liftStore (Store.quiet_mkArrow _ _)) fun t => by
        subst hm
        exact .pure (.intro pos pos' t param result name rules m)

theorem alike_fn (pos pos' : Pos) (bs : List Branch) :
    Alike cfg
      (curriedFunction level pos f 1 fun params scrutinee result =>
        elaborateClauses env level f params scrutinee result (bs.map Branch.clause))
      (elaborateExpr env level (.fn pos' (bs.map Branch.rule))) SameFunction := by
  rw [curriedFunction_one, elaborateExpr]
  refine .after pervasive_unaffected.freshType fun param =>
    .after pervasive_unaffected.freshType fun result =>
    .bind (alike_branches param result bs) fun rules rules' hrules => ?_
  subst hrules
  exact alike_function pos pos' param result rules

/-! ## Declarations -/

/-- A group of one function is one component. -/
theorem components_one (b : Dependency.Binding) : Dependency.components [b] = [[0]] := by
  have hnames : ([b].map (·.name)).Nodup := List.nodup_singleton _
  obtain ⟨hpartition, hnonempty, -, -⟩ := Dependency.sorted_components hnames
  have hflatten : (Dependency.components [b]).flatten = [0] := List.perm_singleton.mp hpartition
  generalize Dependency.components [b] = classes at hflatten hnonempty
  match classes with
  | [] => cases hflatten
  | [] :: _ => exact absurd List.mem_cons_self hnonempty
  | (i :: is) :: rest =>
    obtain ⟨rfl, htail⟩ := List.cons.inj hflatten
    obtain ⟨rfl, hrest⟩ := List.append_eq_nil_iff.mp htail
    match rest with
    | [] => rfl
    | c :: _ =>
      have hc : c = [] := (List.append_eq_nil_iff.mp hrest).1
      exact absurd (hc ▸ List.mem_cons_of_mem _ List.mem_cons_self) hnonempty

/-- A group of one function is a recursive function. -/
theorem functionsDecl_one (pos : Pos) (m : Member) (hm : env.isConstructor m.name = false) :
    functionsDecl env level pos [m] [[0]] = (do
      trace "function group" [("pos", .text pos.render), ("functions", .number 1),
        ("components", .number 1)]
      let t ← freshType (level + 1)
      let fn ← m.elaborate (env.bind m.name (.mono t)) (level + 1)
      unify m.pos t fn.type
      let σ ← generalize env m.pos level t
      traceBindings [⟨m.name, σ⟩]
      return ⟨some (.functions pos [⟨m.name, σ, fn⟩]), env.bind m.name σ, [⟨m.name, σ⟩]⟩) := by
  simp [functionsDecl, checkNames, hm, elaborateComponents, elaborateComponent, elaborateMembers,
    generalizeMembers]

/-- A recursive value without annotation. -/
theorem recursiveDecl_var (pos vpos exprPos : Pos) (hf : env.isConstructor f = false)
    (expr : Env → ElaborateM Typed.Expr) :
    recursiveDecl env level pos (.var vpos f) true exprPos expr = (do
      let t ← freshType (level + 1)
      let fn ← expr (env.bind f (.mono t))
      unify exprPos t fn.type
      let σ ← generalize env pos level t
      traceBindings [⟨f, σ⟩]
      return ⟨some (.functions pos [⟨f, σ, fn⟩]), env.bind f σ, [⟨f, σ⟩]⟩) := by
  simp [recursiveDecl, recursiveName?, hf]

/-- Declared by clauses or as a recursive value, a function of one parameter gets the same type
scheme and the same match; or both declarations fail with the same error. -/
theorem functions_alike_recursive (cfg : Config) (env : Env) (level : Int) (f : String)
    (hf : env.isConstructor f = false) (pos bindingPos pos' varPos fnPos : Pos) (b : Branch)
    (bs : List Branch) (s : State) :
    let byClauses := elaborateDecl env level
      (.functions pos [⟨bindingPos, f, (b :: bs).map Branch.clause⟩]) cfg s
    let byValue := elaborateDecl env level
      (.val pos' true (.var varPos f) (.fn fnPos ((b :: bs).map Branch.rule))) cfg s
    Succeed (SameDeclaration env f) byClauses.1 byValue.1 ∧
      byClauses.2.UpToPositions byValue.2 := by
  have halike : Alike cfg
      (elaborateDecl env level (.functions pos [⟨bindingPos, f, (b :: bs).map Branch.clause⟩]))
      (elaborateDecl env level
        (.val pos' true (.var varPos f) (.fn fnPos ((b :: bs).map Branch.rule))))
      (SameDeclaration env f) := by
    rw [elaborateDecl, elaborateDecl]
    refine .withinValue ?_
    rw [List.map_singleton, components_one, members, members, functionsDecl_one _ _ hf,
      isFunction, recursiveDecl_var _ _ _ hf]
    refine .traced <| .after pervasive_unaffected.freshType fun t =>
      .bind (alike_fn bindingPos fnPos (b :: bs)) fun fn fn' hfn => ?_
    rw [hfn.type]
    refine .bind (alike_unify _ _ _ _) fun _ _ _ =>
      .bind (alike_generalize _ _ _) fun σ σ' hσ => ?_
    subst hσ
    exact .after (pervasive_unaffected.traceBindings _) fun _ => .pure (.intro pos pos' σ hfn)
  exact halike s s (.refl s)

/-- `last [x] = x` -/
def lastOne : Branch :=
  let p := Pos.none
  ⟨p, .list p [.var p "x"], .var p "x"⟩

/-- `last (_ :: xs) = last xs` -/
def lastMore : Branch :=
  let p := Pos.none
  ⟨p, .con p "::" (some (.tuple p [.wildcard p, .var p "xs"])),
    .app p (.var p "last") (.var p "xs")⟩

/-- Both forms of `last` are accepted. -/
theorem functions_alike_recursive_last :
    (Env.initial {}).1.isConstructor "last" = false ∧
    ∃ byClauses byValue,
      (elaborateDecl (Env.initial {}).1 0
        (.functions .none [⟨.none, "last", [lastOne, lastMore].map Branch.clause⟩]) {}
        preludeState).1 = .ok byClauses ∧
      (elaborateDecl (Env.initial {}).1 0
        (.val .none true (.var .none "last") (.fn .none ([lastOne, lastMore].map Branch.rule))) {}
        preludeState).1 = .ok byValue ∧
      SameDeclaration (Env.initial {}).1 "last" byClauses byValue := by
  have hlast : (Env.initial {}).1.isConstructor "last" = false := by decide +kernel
  have hok : (elaborateDecl (Env.initial {}).1 0
      (.functions .none [⟨.none, "last", [lastOne, lastMore].map Branch.clause⟩]) {}
      preludeState).1.isOk = true := by
    decide +kernel
  obtain ⟨hsame, -⟩ := functions_alike_recursive {} (Env.initial {}).1 0 "last" hlast
    .none .none .none .none .none lastOne [lastMore] preludeState
  refine ⟨hlast, ?_⟩
  generalize (elaborateDecl (Env.initial {}).1 0
    (.functions .none [⟨.none, "last", [lastOne, lastMore].map Branch.clause⟩]) {}
    preludeState).1 = byClauses at hok hsame ⊢
  generalize (elaborateDecl (Env.initial {}).1 0
    (.val .none true (.var .none "last") (.fn .none ([lastOne, lastMore].map Branch.rule))) {}
    preludeState).1 = byValue at hsame ⊢
  cases hsame with
  | error => cases hok
  | ok hab => exact ⟨_, _, rfl, rfl, hab⟩

/-! ## Groups of functions

The functions of a group are elaborated one component of the group after the other, in the order
of their references.  Two inputs show where this goes wrong. -/

end Typecase.Elaborate

namespace Typecase.Typed

mutual

/-- The names that occur in an expression, with the types at which they are used. -/
def Expr.uses : Expr → List (String × Ty)
  | .var note name _ => [(name, note.type)]
  | .literal _ _ | .selector _ _ => []
  | .app _ f arg => f.uses ++ arg.uses
  | .fn _ _ body => body.uses
  | .case _ e rules _ | .handle _ e rules _ => e.uses ++ rulesUses rules
  | .letIn _ ds e => declsUses ds ++ e.uses
  | .tuple _ es | .seq _ es => exprsUses es
  | .record _ fs => fieldsUses fs
  | .raise _ e => e.uses

def exprsUses : List Expr → List (String × Ty)
  | [] => []
  | e :: es => e.uses ++ exprsUses es

def fieldsUses : List (String × Expr) → List (String × Ty)
  | [] => []
  | (_, e) :: fs => e.uses ++ fieldsUses fs

def rulesUses : List Rule → List (String × Ty)
  | [] => []
  | ⟨_, none, body⟩ :: rs => body.uses ++ rulesUses rs
  | ⟨_, some guard, body⟩ :: rs => guard.uses ++ body.uses ++ rulesUses rs

def Decl.uses : Decl → List (String × Ty)
  | .val _ _ e _ _ => e.uses
  | .functions _ bs => bindingsUses bs
  | .datatypes _ _ | .exceptions _ _ => []
  | .localIn _ ds body => declsUses ds ++ declsUses body

def declsUses : List Decl → List (String × Ty)
  | [] => []
  | d :: ds => d.uses ++ declsUses ds

def bindingsUses : List FunBinding → List (String × Ty)
  | [] => []
  | ⟨_, _, fn⟩ :: bs => fn.uses ++ bindingsUses bs

end

/-- The functions of a group. -/
def Decl.group : Decl → List FunBinding
  | .functions _ bs => bs
  | _ => []

end Typecase.Typed

namespace Typecase.Elaborate

open Source

/-- `fun g s = s ^ "!"`, and then
`fun g y = y + 1 and f x = let local val g = 1 in val h = 2 end in g x end` -/
def privateName : Program :=
  let p := Pos.none
  let binary (op x : String) (l : Literal) : Expr :=
    .app p (.var p op) (.tuple p [.var p x, .literal p l])
  let hidden : Decl := .localIn p [.val p false (.var p "g") (.literal p ⟨.int, "1"⟩)]
    [.val p false (.var p "h") (.literal p ⟨.int, "2"⟩)]
  [.functions p [⟨p, "g", [⟨p, [.var p "s"], none, binary "^" "s" ⟨.string, "!"⟩⟩]⟩],
    .functions p [⟨p, "g", [⟨p, [.var p "y"], none, binary "+" "y" ⟨.int, "1"⟩⟩]⟩,
      ⟨p, "f", [⟨p, [.var p "x"], none, .letIn p [hidden] (.app p (.var p "g") (.var p "x"))⟩]⟩]]

/-- A reference that a private name hides from the analysis is taken for a name from outside of
the group.  In the typed group, `f` uses `g` at a type that `g` does not have. -/
theorem privateName_used_at_other_type :
    (elaborateProgram {} privateName (Env.initial {}).1 preludeState).1.diagnostics = [] ∧
    ∃ d ∈ (elaborateProgram {} privateName (Env.initial {}).1 preludeState).1.decls,
      ∃ g ∈ d.group, ∃ f ∈ d.group, g.name = "g" ∧ g.scheme.bound = [] ∧
        ∃ use ∈ f.fn.uses, use.1 = "g" ∧
          (elaborateProgram {} privateName (Env.initial {}).1 preludeState).2.store.showTypes
            [g.scheme.type, use.2] = ["int -> int", "string -> string"] := by
  decide +kernel

/-- `fun f (x : 'a) = x and g (y : 'a) = y` -/
def sharedTypeVar : Program :=
  let p := Pos.none
  let identity (f x : String) : FunBinding :=
    ⟨p, f, [⟨p, [.annot p (.var p x) (.var p "'a")], none, .var p x⟩]⟩
  [.functions p [identity "f" "x", identity "g" "y"]]

/-- An explicit type variable is shared by the functions of a group, but quantified with the first
component that mentions it.  The other components then cannot use it. -/
theorem sharedTypeVar_fails :
    (elaborateProgram (Config.checking {} false) sharedTypeVar (Env.initial {}).1
      preludeState).1.diagnostics.map (·.kind) = [.internal] := by
  decide +kernel

end Typecase.Elaborate
