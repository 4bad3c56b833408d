import Typecase.Proofs.Elaborate.Forms
set_option autoImplicit false

/-!
# Judgements about all expressions and declarations

By induction on the syntax, a judgement that holds of all steps of elaboration holds of the
elaboration of every expression and every declaration.
-/

namespace Typecase.Elaborate

open Source

/-- What later steps see of declarations. -/
def declsView (exact : Bool) (r : List Typed.Decl × Env × List Binding) :=
  (r.2.1.view exact, r.2.2)

namespace AllSteps

open Steps

variable {base inner : Int → Prop} {Q : Env → Prop} {J : Judgement} (L : AllSteps base inner Q J)
include L

/-- A tuple in so many words is seen by its first component. -/
theorem tuple {d : Nat} {n : Int} {B : List Bound} {pos : Pos} (es es' : List Typed.Expr) :
    es'.map exprView = es.map exprView → upTo n (es.flatMap exprVars) ⊆ B → Types J d n B
      (match es with
        | [e] => pure e
        | es => do return .tuple ⟨pos, ← liftStore (Ty.mkTuple (es.map Typed.Expr.type))⟩ es)
      (match es' with
        | [e] => pure e
        | es => do return .tuple ⟨pos, ← liftStore (Ty.mkTuple (es.map Typed.Expr.type))⟩ es) := by
  intro hview hes
  have htypes : upTo n (Ty.varsList (es.map Typed.Expr.type)) ⊆ B :=
    List.Subset.trans (upTo_mono varsList_types_subset) hes
  match es, es', hview with
  | [], [], _ => exact L.after (L.mkTuple htypes) fun t => L.plain rfl rfl (by simp)
  | [e], [e'], hview => exact L.pure (List.cons.inj hview).1 (by simpa using hes)
  | [_], _ :: _ :: _, hview | _ :: _ :: _, [_], hview => cases (List.cons.inj hview).2
  | e :: e₁ :: es, e' :: e₁' :: es', hview =>
    simp only [types_eq hview]
    refine L.after (L.mkTuple htypes) fun t => L.pure ?_ ?_
    · have hfirst : e'.type = e.type := type_eq (List.cons.inj hview).1
      exact congrArg (fun t' => ((⟨pos, t⟩ : Note), some t')) hfirst
    · show upTo n (t.vars ++ (e.type.vars ++ [])) ⊆ _
      simp_all [Ty.varsList]

mutual

theorem elaborateExpr {d : Nat} {n : Int} {B : List Bound} {exact : Bool} {env env' : Env}
    (h : Scope inner Q d n B exact env env') : (e : Expr) →
    Types J d n B (elaborateExpr env n e) (elaborateExpr env' n e)
  | .literal pos lit => by
    unfold Elaborate.elaborateExpr
    exact L.plain rfl rfl (by simp [vars_literalType])
  | .var pos name => by
    unfold Elaborate.elaborateExpr
    exact L.identifier h name
  | .app pos func arg => by
    unfold Elaborate.elaborateExpr
    refine L.bind (elaborateExpr h func) fun f f' hf => ?_
    refine L.bind (elaborateExpr (h.mono (by simp)) arg) fun e e' he => ?_
    exact L.application (L.base_of_inner h.level) hf he (by simp)
  | .fn pos rules => by
    unfold Elaborate.elaborateExpr
    refine L.after (L.freshType (L.base_of_inner h.level)) fun param => ?_
    refine L.after (L.freshType (L.base_of_inner h.level)) fun result => ?_
    refine L.bind (elaborateRules (h.mono (by simp)) (by simp) (by simp) rules)
      fun rs rs' hrs => L.function hrs (by simp)
  | .case pos scrutinee rules => by
    unfold Elaborate.elaborateExpr
    refine L.bind (elaborateExpr h scrutinee) fun e e' he => ?_
    rw [type_eq he]
    refine L.after (L.freshType (L.base_of_inner h.level)) fun result => ?_
    refine L.bind (elaborateRules (h.mono (by simp)) (by simp [exprVars]) (by simp) rules)
      fun rs rs' hrs => ?_
    exact L.after (L.compileRules hrs _ _) fun m => L.plain rfl rfl (by simp)
  | .letIn pos decls body => by
    unfold Elaborate.elaborateExpr
    have hknown := L.inherited.scope h.known
    refine L.chain (elaborateDecls ⟨L.base_of_inner h.level, hknown, h.alike.scope, h.within.scope⟩
      (fun hd => absurd hd h.depth) decls) fun ds ds' hmade hds => ?_
    refine L.bind (elaborateExpr ⟨h.depth, h.level, L.inherited.decls hmade hknown,
      Env.view_eq_iff.mp (Prod.mk.inj hds).1, List.subset_append_left _ _⟩ body) fun e e' he => ?_
    rw [type_eq he]
    exact L.plain rfl rfl (by simp [exprVars])
  | .tuple pos elems => by
    unfold Elaborate.elaborateExpr
    exact L.bind (elaborateExprs h elems) fun es es' hes =>
      L.tuple es es' hes (List.subset_append_left _ _)
  | .record pos fields => by
    unfold Elaborate.elaborateExpr
    refine L.bind (elaborateFields h rfl (by simp [Ty.varsFields]) fields) fun fs fs' hfs => ?_
    rw [fieldTypes_eq hfs]
    exact L.after (L.mkRecord (n := n) (by simp [Ty.vars])) fun t => L.plain rfl rfl (by simp)
  | .selector pos label => by
    unfold Elaborate.elaborateExpr
    exact L.selector (L.base_of_inner h.level) label
  | .list pos elems => by
    unfold Elaborate.elaborateExpr
    exact L.listExpr h fun elem C hcs helem => elaborateListElements (h.mono hcs) helem elems
  | .seq pos exprs => by
    unfold Elaborate.elaborateExpr
    refine L.bind (elaborateExprs h exprs) fun es es' hes => ?_
    have hlast := getLast?_eq hes
    cases he : es.getLast? with
    | none =>
      rw [he, Option.map_none, Option.map_eq_none_iff] at hlast
      rw [hlast]
      exact L.plain rfl rfl (by simp [Ty.unit, Ty.vars, Ty.varsList])
    | some e =>
      rw [he, Option.map_some, Option.map_eq_some_iff] at hlast
      obtain ⟨e', he', hview⟩ := hlast
      rw [he']
      simp only [type_eq hview]
      refine L.plain rfl rfl (List.subset_append_of_subset_left _ (upTo_mono fun v hv => ?_))
      exact List.mem_flatMap.mpr ⟨e, List.mem_of_getLast? he, List.mem_append_left _ hv⟩
  | .cond pos test whenTrue whenFalse => by
    unfold Elaborate.elaborateExpr
    exact L.conditional h rfl rfl rfl fun C hcs => ⟨elaborateExpr (h.mono hcs) test,
      elaborateExpr (h.mono hcs) whenTrue, elaborateExpr (h.mono hcs) whenFalse⟩
  | .andalso pos left right => by
    unfold Elaborate.elaborateExpr
    exact L.conditional h rfl rfl rfl fun C hcs => ⟨elaborateExpr (h.mono hcs) left,
      elaborateExpr (h.mono hcs) right, L.identifier (h.mono hcs) "false"⟩
  | .orelse pos left right => by
    unfold Elaborate.elaborateExpr
    exact L.conditional h rfl rfl rfl fun C hcs => ⟨elaborateExpr (h.mono hcs) left,
      L.identifier (h.mono hcs) "true", elaborateExpr (h.mono hcs) right⟩
  | .raise pos expr => by
    unfold Elaborate.elaborateExpr
    refine L.bind (elaborateExpr h expr) fun e e' he => ?_
    rw [type_eq he]
    refine L.after (L.unify n ?_) fun _ => ?_
    · simp [exprVars, Ty.exn, Ty.const, Ty.vars, Ty.varsList]
    · exact L.after (L.freshType (L.base_of_inner h.level)) fun t => L.plain rfl rfl (by simp)
  | .handle pos expr rules => by
    unfold Elaborate.elaborateExpr
    refine L.bind (elaborateExpr h expr) fun e e' he => ?_
    rw [type_eq he]
    refine L.bind (elaborateRules (h.mono (by simp))
      (by simp [Ty.exn, Ty.const, Ty.vars, Ty.varsList]) (by simp [exprVars]) rules)
      fun rs rs' hrs => ?_
    exact L.after (L.compileRules hrs _ _) fun m => L.plain rfl rfl (by simp [exprVars])
  | .annot pos expr type => by
    unfold Elaborate.elaborateExpr
    refine L.bind (elaborateExpr h expr) fun e e' he => ?_
    rw [type_eq he]
    refine L.after (L.annotation (h.mono (by simp)) type) fun t => ?_
    exact L.after (L.unify n (by simp [exprVars])) fun _ => L.pure he (by simp)

theorem elaborateExprs {d : Nat} {n : Int} {B : List Bound} {exact : Bool} {env env' : Env}
    (h : Scope inner Q d n B exact env env') : (es : List Expr) →
    J (List Typed.Expr) _ d B (elaborateExprs env n es) (elaborateExprs env' n es)
      (List.map exprView) fun es => upTo n (es.flatMap exprVars)
  | [] => by
    unfold Elaborate.elaborateExprs
    exact L.pure rfl (by simp)
  | e :: es => by
    unfold Elaborate.elaborateExprs
    refine L.bind (elaborateExpr h e) fun e e' he => ?_
    refine L.bind (elaborateExprs (h.mono (by simp)) es) fun es es' hes => L.pure ?_ (by simp)
    rw [List.map_cons, List.map_cons, he, hes]

theorem elaborateListElements {d : Nat} {n : Int} {B : List Bound} {exact : Bool} {env env' : Env}
    (h : Scope inner Q d n B exact env env') {elem : Ty} (helem : upTo n elem.vars ⊆ B) :
    (es : List Expr) →
    J (List Typed.Expr) _ d B (elaborateListElements env n elem es)
      (elaborateListElements env' n elem es) (List.map exprView) fun _ => []
  | [] => by
    unfold Elaborate.elaborateListElements
    exact L.pure rfl (by simp)
  | e :: es => by
    unfold Elaborate.elaborateListElements
    refine L.bind (elaborateExpr h e) fun e e' he => ?_
    rw [type_eq he]
    refine L.after (L.unify n (by simp [exprVars, helem])) fun _ => ?_
    refine L.bind (elaborateListElements (h.mono (by simp)) (by simp [helem]) es)
      fun es es' hes => L.pure ?_ (by simp)
    rw [List.map_cons, List.map_cons, he, hes]

theorem elaborateFields {d : Nat} {n : Int} {B : List Bound} {exact : Bool} {env env' : Env}
    (h : Scope inner Q d n B exact env env') {pos : Pos} {done done' : List (String × Typed.Expr)}
    (hview : done'.map fieldView = done.map fieldView)
    (hdone : upTo n (Ty.varsFields (done.map fun f => (f.1, f.2.type))) ⊆ B) :
    (fields : List (String × Expr)) →
    J (List (String × Typed.Expr)) _ d B (elaborateFields env n pos done fields)
      (elaborateFields env' n pos done' fields) (List.map fieldView)
      fun fs => upTo n (Ty.varsFields (fs.map fun f => (f.1, f.2.type)))
  | [] => by
    unfold Elaborate.elaborateFields
    exact L.pure hview hdone
  | (label, e) :: fields => by
    unfold Elaborate.elaborateFields
    rw [has_eq hview]
    refine ite L.fail_bind (L.bind (elaborateExpr h e) fun e e' he => ?_)
    refine elaborateFields (h.mono (by simp)) ?_ ?_ fields
    · simp [hview, fieldView, he]
    · simp_all [Ty.varsFields, Ty.varsFields_append, exprVars]

theorem elaborateRules {d : Nat} {n : Int} {B : List Bound} {exact : Bool} {env env' : Env}
    (h : Scope inner Q d n B exact env env') {arg result : Ty} (harg : upTo n arg.vars ⊆ B)
    (hresult : upTo n result.vars ⊆ B) : (rules : List Rule) →
    Rules J d B (elaborateRules env n arg result rules) (elaborateRules env' n arg result rules)
  | [] => by
    unfold Elaborate.elaborateRules
    exact L.pure rfl (by simp)
  | ⟨_, pattern, none, body⟩ :: rules => by
    unfold Elaborate.elaborateRules
    refine L.after (L.collected (L.elaboratePattern pattern h)) fun (p, vars) => ?_
    refine L.after (L.unify n (by grind)) fun _ => ?_
    refine L.bind (elaborateExpr (L.bindVars (h.mono (by simp)) (by simp)) body) fun e e' he => ?_
    rw [type_eq he]
    refine L.after (L.unify n (by grind [exprVars])) fun _ => ?_
    refine L.bind (elaborateRules (h.mono (by grind)) (by grind) (by grind) rules)
      fun rs rs' hrs => L.pure (congrArg (_ :: ·) hrs) (by simp)
  | ⟨_, pattern, some guard, body⟩ :: rules => by
    unfold Elaborate.elaborateRules
    refine L.after (L.collected (L.elaboratePattern pattern h)) fun (p, vars) => ?_
    have hscope := L.bindVars (h.mono (List.subset_append_right _ _))
      (show upTo n (Ty.varsFields vars) ⊆ upTo n p.type.vars ++ upTo n (Ty.varsFields vars) ++ B
        by simp)
    refine L.after (L.unify n (by grind)) fun _ => ?_
    refine L.bind (elaborateExpr hscope guard) fun g g' hg => ?_
    rw [type_eq hg]
    refine L.after (L.unify n ?_) fun _ => ?_
    · simp [exprVars, Ty.bool, Ty.const, Ty.vars, Ty.varsList]
    refine L.bind (elaborateExpr (hscope.mono (by simp)) body) fun e e' he => ?_
    rw [type_eq he]
    refine L.after (L.unify n (by grind [exprVars])) fun _ => ?_
    refine L.bind (elaborateRules (h.mono (by grind)) (by grind) (by grind) rules)
      fun rs rs' hrs => L.pure (congrArg (_ :: ·) hrs) (by simp)

theorem elaborateDecl {d : Nat} {n : Int} {B : List Bound} {exact : Bool} {env env' : Env}
    (h : DeclScope base Q n B exact env env') (htop : d = 0 → n = 0) : (decl : Decl) →
    Makes J d n B exact (elaborateDecl env n decl) (elaborateDecl env' n decl)
  | .val pos false pattern expr => by
    unfold Elaborate.elaborateDecl
    rw [isValue_congr h.alike]
    refine L.withinValue htop (L.deeper h.within ?_)
    refine L.bind (elaborateExpr (L.inside h (Nat.succ_ne_zero d)) expr)
      fun e e' he => ?_
    exact L.valueDecl (h.mono (by simp)) (Nat.succ_ne_zero d) pattern _ he (by simp)
  | .val pos true pattern expr => by
    unfold Elaborate.elaborateDecl
    exact L.withinValue htop (L.recursiveDecl h (Nat.succ_ne_zero d) pattern
      _ _ fun C scope scope' hscope => elaborateExpr hscope expr)
  | .functions pos bindings => by
    unfold Elaborate.elaborateDecl
    exact L.withinValue htop (L.functionsDecl h (Nat.succ_ne_zero d)
      (members_of bindings) _)
  | .datatypes pos bindings => by
    unfold Elaborate.elaborateDecl
    exact L.datatypesDecl h.forget bindings
  | .abbreviation pos params name type => by
    unfold Elaborate.elaborateDecl
    exact L.abbreviationDecl h.forget params name type
  | .exceptions pos bindings => by
    unfold Elaborate.elaborateDecl
    exact L.exceptionsDecl h bindings
  | .localIn pos decls body => by
    unfold Elaborate.elaborateDecl
    have hknown := L.inherited.scope h.known
    refine L.chain (elaborateDecls ⟨h.level, hknown, h.alike.scope, h.within.scope⟩ htop decls)
      fun ds ds' hmade hds => ?_
    have hds := (Env.view_eq_iff.mp (Prod.mk.inj hds).1).scope
    refine L.bind (elaborateDecls ⟨h.level, L.inherited.scope (L.inherited.decls hmade hknown), hds,
      Env.Over.scope (List.subset_append_left _ _)⟩ htop body) fun rs rs' hrs => ?_
    obtain ⟨henv, hbindings⟩ := Prod.mk.inj hrs
    have hadopted := h.alike.adopt (Env.view_eq_iff.mp henv)
    refine L.pure (Prod.ext (Env.view_eq_iff.mpr hadopted) hbindings)
      ((h.within.mono (by simp)).adopt (List.subset_append_left _ _))

theorem elaborateDecls {d : Nat} {n : Int} {B : List Bound} {exact : Bool} {env env' : Env}
    (h : DeclScope base Q n B exact env env') (htop : d = 0 → n = 0) : (decls : List Decl) →
    J (List Typed.Decl × Env × List Binding) _ d B (elaborateDecls env n decls)
      (elaborateDecls env' n decls) (declsView exact) fun r => upTo n r.2.1.vars
  | [] => by
    unfold Elaborate.elaborateDecls
    exact L.pure (congrArg (·, _) (Env.view_eq_iff.mpr h.alike)) h.within
  | decl :: decls => by
    unfold Elaborate.elaborateDecls
    refine L.chain (elaborateDecl h htop decl) fun r r' hmade hr => ?_
    obtain ⟨henv, hbindings⟩ := Prod.mk.inj hr
    refine L.bind (elaborateDecls ⟨h.level, L.inherited.decl hmade h.known, Env.view_eq_iff.mp henv,
      List.subset_append_left _ _⟩ htop decls) fun rs rs' hrs => ?_
    obtain ⟨henv, hrest⟩ := Prod.mk.inj hrs
    exact L.pure (Prod.ext henv (congrArg₂ (· ++ ·) hbindings hrest)) (List.subset_append_left _ _)

theorem members_of {d : Nat} : (bindings : List FunBinding) →
    ∀ f ∈ members bindings, Judged J inner Q (d + 1) f
  | [] => nofun
  | ⟨pos, name, clauses⟩ :: bindings => by
    unfold members
    refine List.forall_mem_cons.mpr ⟨?_, members_of bindings⟩
    intro n B exact env env' h
    exact L.curriedFunction (L.base_of_inner h.level) fun params scrutinee result C hcs hparams
      hresult => elaborateClauses (h.mono hcs) hparams hresult clauses

theorem elaborateClauses {d : Nat} {n : Int} {B : List Bound} {exact : Bool} {env env' : Env}
    (h : Scope inner Q d n B exact env env') {name : String} {params : List Ty}
    {scrutinee result : Ty} (hparams : upTo n (Ty.varsList params) ⊆ B)
    (hresult : upTo n result.vars ⊆ B) : (clauses : List FunClause) →
    Rules J d B (elaborateClauses env n name params scrutinee result clauses)
      (elaborateClauses env' n name params scrutinee result clauses)
  | [] => by
    unfold Elaborate.elaborateClauses
    exact L.pure rfl (by simp)
  | ⟨pos, patterns, annot, body⟩ :: clauses => by
    unfold Elaborate.elaborateClauses
    refine L.bind (L.functionClause h hparams hresult fun C scope scope' hscope =>
      elaborateExpr hscope body) fun r r' hr => ?_
    refine L.bind (elaborateClauses (h.mono (by simp)) (by simp [hparams]) (by simp [hresult])
      clauses)
      fun rs rs' hrs => L.pure (congrArg₂ List.cons hr hrs) (by simp)

end

end AllSteps

end Typecase.Elaborate
