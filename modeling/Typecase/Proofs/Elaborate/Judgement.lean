import Typecase.Proofs.Elaborate.Runs
import Typecase.Proofs.Elaborate.Scopes
import Typecase.Proofs.Types.Quiet
set_option autoImplicit false

/-!
# Judgements about elaboration

Elaboration does few things: it works on the store, reads the store and the configuration, logs and
reports, brings type variables into scope, and stops with errors or breaks down.  A judgement that
all of these
steps satisfy, and that passes on from parts to the whole, holds of types, patterns and matches, and
of the forms of expressions and declarations, given their parts.

A judgement compares two runs, in environments in which every name means the same.  It is told what
is known of the levels of variables, and what later steps see of a result.
-/

namespace Typecase

/-- The variable that is not in scope, if that is the problem. -/
def Problem.missing? : Problem → Option String
  | .unboundIdentifier x => some x
  | _ => none

theorem Problem.missing?_ofUnifyError (s : Store) (e : UnifyError) (curried : Bool) :
    (Problem.ofUnifyError s e curried).missing? = none := by
  unfold Problem.ofUnifyError
  split <;> rfl

namespace Elaborate

open Source

variable {α β γ δ : Type}

/-! ## Steps -/

/-- `J α γ d B m m' view q`: where the bounds `B` are kept, inside of `d` value declarations, `m`
and `m'` come to results with the same `view`, and the bounds `q a` are kept for the result `a`. -/
abbrev Judgement := (α γ : Type) → Nat → List Bound → ElaborateM α → ElaborateM α → (α → γ) →
  (α → List Bound) → Prop

/-- Working on a regular store, where levels of `base` are in use, `act` keeps bounds. -/
def Sound (base : Int → Prop) (B : List Bound) (act : StoreM α) (q : α → List Bound) : Prop :=
  (∀ n, base n → 0 ≤ n) → ∀ s : Store, s.Regular → s.renames = [] → s.Keeps B →
    s.Advances (act s).2 ∧ (act s).2.Keeps (q (act s).1)

/-- `m` may come to the result `a`. -/
def Possible (m : ElaborateM α) (a : α) : Prop := ∃ cfg s s', m cfg s = (.ok a, s')

/-- `Q` passes on from an environment to those that are made from it by elaboration. -/
structure Inherited (Q : Env → Prop) : Prop where
  scope : ∀ {env : Env}, Q env → Q env.scope
  bind : ∀ {env : Env} (name : String) (σ : Scheme), Q env → Q (env.bind name σ)
  decl : ∀ {env : Env} {level : Int} {d : Decl} {r : Elaborated},
    Possible (elaborateDecl env level d) r → Q env → Q r.env
  decls : ∀ {env : Env} {level : Int} {ds : List Decl} {r : List Typed.Decl × Env × List Binding},
    Possible (elaborateDecls env level ds) r → Q env → Q r.2.1
  component : ∀ {env : Env} {level : Int} {fs : List (Nat × Member)}
    {r : Env × List (Nat × Typed.FunBinding)},
    Possible (elaborateComponent env level fs) r → Q env → Q r.1

theorem inherited_true : Inherited fun _ => True :=
  ⟨fun h => h, fun _ _ h => h, fun _ h => h, fun _ h => h, fun _ h => h⟩

theorem Inherited.foldl {Q : Env → Prop} (hQ : Inherited Q) (f : α → String × Scheme) (as : List α)
    {env : Env} (henv : Q env) : Q (as.foldl (fun env a => env.bind (f a).1 (f a).2) env) := by
  induction as generalizing env with
  | nil => exact henv
  | cons a as ih => exact ih (hQ.bind _ _ henv)

/-- `J` holds of the steps of elaboration and passes on from parts to the whole.  Declarations are
elaborated at the levels `base`, and explicit type variables are used at the levels `inner`.  A
variable may be missing only from an environment with the property `Q`. -/
structure Steps (base inner : Int → Prop) (Q : Env → Prop) (J : Judgement) : Prop where
  base_of_inner : ∀ {n}, inner n → base n
  inner_succ : ∀ {n}, base n → inner (n + 1)
  inherited : Inherited Q
  pure : ∀ {α γ d B} {a a' : α} {view : α → γ} {q}, view a' = view a → q a ⊆ B →
    J α γ d B (pure a) (pure a') view q
  fail : ∀ {α γ d B} {view : α → γ} {q} (pos : Pos) (p : Problem), p.missing? = none →
    J α γ d B (fail pos p) (fail pos p) view q
  missing : ∀ {α γ d B} {view : α → γ} {q} {env : Env} {name : String} (pos : Pos), Q env →
    env.value? name = none →
    J α γ d B (Elaborate.fail pos (.unboundIdentifier name))
      (Elaborate.fail pos (.unboundIdentifier name)) view q
  crash : ∀ {α γ d B} {view : α → γ} {q}, J α γ d B crash crash view q
  /-- Only the results that are possible matter to what follows. -/
  chain : ∀ {α γ β δ d B m m' k k'} {view : α → γ} {q} {view' : β → δ} {q'},
    J α γ d B m m' view q →
    (∀ a a', Possible m a → view a' = view a → J β δ d (q a ++ B) (k a) (k' a') view' q') →
    J β δ d B (m >>= k) (m' >>= k') view' q'
  /-- A bound implies the same at deeper levels. -/
  weaken : ∀ {α γ d B C m m'} {view : α → γ} {q}, J α γ d B m m' view q →
    (∀ b ∈ B, ∃ l, l ≤ b.1 ∧ (l, b.2) ∈ C) → J α γ d C m m' view q
  liftStore : ∀ {α d B} {act : StoreM α} {q}, Store.Quiet act → Sound base B act q →
    J α α d B (liftStore act) (liftStore act) id q
  /-- Types are looked at that lie within levels. -/
  getStore : ∀ {d B} (ts : List (Int × Ty)), (∀ e ∈ ts, upTo e.1 e.2.vars ⊆ B) →
    J Store Store d B getStore getStore id fun s => ts.flatMap fun e => upTo e.1 (s.head e.2).vars
  /-- Nothing looks at the limit of errors, and nothing else at whether generalizations are
  checked. -/
  read : ∀ {α γ d B} {k k' : Config → ElaborateM α} {view : α → γ} {q},
    (∀ cfg check limit, k { cfg with checkGeneralization := check, maxErrors := limit } = k cfg) →
    (∀ cfg, J α γ d B (k cfg) (k' cfg) view q) → J α γ d B (read >>= k) (read >>= k') view q
  trace : ∀ {d B} (message : String) (values : List (String × Log.Value)),
    J Unit Unit d B (trace message values) (trace message values) id fun _ => []
  report : ∀ {d B} (p : Problem) (severity : Severity) (pos : Pos), p.missing? = none →
    J Unit Unit d B (liftM (report (p.diagnostic severity pos)))
      (liftM (report (p.diagnostic severity pos))) id fun _ => []
  typeVariable : ∀ {d B n}, d ≠ 0 → inner n → ∀ (pos : Pos) (name : String),
    J Ty Ty d B (typeVariable none pos name) (typeVariable none pos name) id fun t => upTo n t.vars
  /-- A datatype is numbered. -/
  countDatatype : ∀ {α γ d B} {k k' : Nat → ElaborateM α} {view : α → γ} {q},
    (∀ id, J α γ d B (k id) (k' id) view q) →
    J α γ d B
      (get >>= fun s => modify (fun s' => { s' with datatypes := s.datatypes + 1 }) >>= fun _ =>
        k s.datatypes)
      (get >>= fun s => modify (fun s' => { s' with datatypes := s.datatypes + 1 }) >>= fun _ =>
        k' s.datatypes) view q
  generalize : ∀ {d B n l} {env env' : Env} {pos : Pos} {t : Ty}, env.Over n B →
    upTo l t.vars ⊆ B →
    J Scheme Scheme d B (generalize env pos n t) (generalize env' pos n t) id
      fun σ => upTo n σ.type.vars

namespace Steps

variable {base inner : Int → Prop} {Q : Env → Prop} {J : Judgement} (L : Steps base inner Q J)
  {d : Nat} {B C : List Bound} {n l : Int} {view : α → γ} {q : α → List Bound} {view' : β → δ}
  {q' : β → List Bound} {exact : Bool} {env env' : Env} {pos : Pos} {a b t : Ty}
  {m m' : ElaborateM α} {k : α → ElaborateM β} {k' : α → PatternM β} {f g : β → ElaborateM α}

theorem ite {c : Prop} [Decidable c] {k k' : ElaborateM α} (hm : J α γ d B m m' view q)
    (hk : J α γ d B k k' view q) :
    J α γ d B (if c then m else k) (if c then m' else k') view q := by
  split
  · exact hm
  · exact hk

include L

theorem bind {k' : α → ElaborateM β} (hm : J α γ d B m m' view q)
    (hk : ∀ a a', view a' = view a → J β δ d (q a ++ B) (k a) (k' a') view' q') :
    J β δ d B (m >>= k) (m' >>= k') view' q' :=
  L.chain hm fun a a' _ => hk a a'

/-- What comes after a computation that both runs share. -/
theorem after {k' : α → ElaborateM β} (hm : J α α d B m m' id q)
    (hk : ∀ a, J β δ d (q a ++ B) (k a) (k' a) view' q') :
    J β δ d B (m >>= k) (m' >>= k') view' q' :=
  L.bind hm fun a a' h => by
    rw [show a' = a from h]
    exact hk a

theorem fail_bind {p : Problem} {k' : α → ElaborateM β} (hp : p.missing? = none := by rfl) :
    J β δ d B ((Elaborate.fail pos p : ElaborateM α) >>= k) (Elaborate.fail pos p >>= k') view' q' :=
  L.fail pos p hp

/-- Less may be seen of a result, and fewer bounds asked for. -/
theorem mono {view₁ : α → δ} {q₁ : α → List Bound} (hm : J α γ d B m m' view q)
    (hview : ∀ a a', view a' = view a → view₁ a' = view₁ a) (hq : ∀ a, q₁ a ⊆ q a ++ B) :
    J α δ d B m m' view₁ q₁ := by
  have h := L.bind hm fun a a' ha => L.pure (hview a a' ha) (hq a)
  rwa [bind_pure, bind_pure] at h

theorem widen (hm : J α γ d B m m' view q) (h : B ⊆ C) : J α γ d C m m' view q :=
  L.weaken hm fun b hb => ⟨b.1, Int.le_refl _, h hb⟩

/-- An environment lies within deeper levels, too. -/
theorem deeper (henv : env.Over n B) (hm : J α γ d (upTo (n + 1) env.vars ++ B) m m' view q) :
    J α γ d B m m' view q := by
  refine L.weaken hm (List.forall_mem_append.mpr ⟨?_, fun b hb => ⟨b.1, Int.le_refl _, hb⟩⟩)
  refine List.forall_mem_map.mpr fun v hv => ⟨n, by omega, upTo_subset_iff.mp henv v hv⟩

theorem mapM {xs : List β} (hf : ∀ x ∈ xs, ∀ C, B ⊆ C → J α γ d C (f x) (g x) view q) :
    J (List α) (List γ) d B (xs.mapM f) (xs.mapM g) (List.map view) (List.flatMap q) := by
  induction xs generalizing B with
  | nil =>
    rw [List.mapM_nil, List.mapM_nil]
    exact L.pure rfl (List.nil_subset _)
  | cons x xs ih =>
    rw [List.forall_mem_cons] at hf
    rw [List.mapM_cons, List.mapM_cons]
    refine L.bind (hf.1 B (List.Subset.refl _)) fun a a' ha => ?_
    refine L.bind (ih fun x hx C hcs => hf.2 x hx C ?_) fun as as' has => L.pure ?_ ?_
    · exact List.Subset.trans (List.subset_append_right _ _) hcs
    · rw [List.map_cons, List.map_cons, ha, has]
    · simp

/-- The same list is computed in both runs. -/
theorem mapM_same {xs : List β} (hf : ∀ x ∈ xs, ∀ C, B ⊆ C → J α α d C (f x) (g x) id q) :
    J (List α) (List α) d B (xs.mapM f) (xs.mapM g) id (List.flatMap q) :=
  L.mono (L.mapM hf) (fun as as' h => by simpa using h) fun as => List.subset_append_left _ _

theorem forM {xs : List α} {f : α → ElaborateM PUnit}
    (hf : ∀ x, J PUnit PUnit d B (f x) (f x) id fun _ => []) :
    J PUnit PUnit d B (xs.forM f) (xs.forM f) id fun _ => [] := by
  induction xs with
  | nil => exact L.pure rfl (List.nil_subset _)
  | cons x xs ih => exact L.after (hf x) fun _ => ih

theorem optionMapM {x : Option β} (hf : ∀ x, J α α d B (f x) (g x) id q) :
    J (Option α) (Option α) d B (x.mapM f) (x.mapM g) id fun a => a.toList.flatMap q := by
  cases x with
  | none => exact L.pure rfl (List.nil_subset _)
  | some x => exact L.after (hf x) fun a => L.pure rfl (by simp)

/-! ## The store -/

theorem store : J Store Store d B Elaborate.getStore Elaborate.getStore id fun _ => [] :=
  L.getStore [] nofun

theorem freshType (hn : base n) :
    J Ty Ty d B (freshType n) (freshType n) id fun t => upTo n t.vars := by
  refine L.liftStore (Store.quiet_freshType n) fun hbase s hs _ _ => ⟨Store.fresh_advances hs n, ?_⟩
  exact Store.keeps_upTo.mpr (Store.within_var.mpr
    (Store.withinVar_fresh (hbase n hn) (Int.le_refl n) s))

theorem unify (n : Int) (h : upTo n (a.vars ++ b.vars) ⊆ B) :
    J Unit Unit d B (unify pos a b) (unify pos a b) id fun _ => [] := by
  have hlift : J _ _ d B (Elaborate.liftStore (Store.unify a b).run)
      (Elaborate.liftStore (Store.unify a b).run) id fun _ => [] := by
    refine L.liftStore (Store.quiet_unify a b) fun _ s hs _ hbs => ⟨?_, nofun⟩
    have hvars := List.forall_mem_append.mp (hbs.upTo h)
    exact Store.unify_advances hs (fun v hv => (hvars.1 v hv).1) fun v hv => (hvars.2 v hv).1
  refine L.after hlift fun r => ?_
  cases r with
  | ok _ => exact L.pure rfl (List.nil_subset _)
  | error e => exact L.after L.store fun s => L.fail _ _ (Problem.missing?_ofUnifyError _ _ _)

/-- A type that is built of types within a level. -/
theorem assemble {act : StoreM Ty} {vs : List Var} (hquiet : Store.Quiet act)
    (hact : ∀ s, Store.Assembles s vs (act s)) (hvs : upTo n vs ⊆ B) :
    J Ty Ty d B (Elaborate.liftStore act) (Elaborate.liftStore act) id fun t => upTo n t.vars := by
  refine L.liftStore hquiet fun _ s hs _ hbs => ⟨(hact s).advances hs, ?_⟩
  exact Store.keeps_upTo.mpr ((hact s).within hs (hbs.upTo hvs))

theorem mkArrow (h : upTo n (a.vars ++ b.vars) ⊆ B) :
    J Ty Ty d B (Elaborate.liftStore (Ty.mkArrow a b)) (Elaborate.liftStore (Ty.mkArrow a b)) id
      fun t => upTo n t.vars :=
  L.assemble (Store.quiet_mkArrow a b) (fun _ => Store.assembles_mkArrow a b) h

theorem mkTuple {ts : List Ty} (h : upTo n (Ty.varsList ts) ⊆ B) :
    J Ty Ty d B (Elaborate.liftStore (Ty.mkTuple ts)) (Elaborate.liftStore (Ty.mkTuple ts)) id
      fun t => upTo n t.vars :=
  L.assemble (Store.quiet_mkTuple ts) (fun _ => Store.assembles_mkTuple ts) h

theorem mkRecord {labels : LabelMap Ty} (h : upTo n (Ty.varsFields labels ++ t.vars) ⊆ B) :
    J Ty Ty d B (Elaborate.liftStore (Ty.mkRecord labels t))
      (Elaborate.liftStore (Ty.mkRecord labels t)) id fun t => upTo n t.vars :=
  L.assemble (Store.quiet_mkRecord labels t) (fun _ => Store.assembles_mkRecord labels t) h

theorem mkCon {name : String} {args : List Ty} (h : upTo n (Ty.varsList args) ⊆ B) :
    J Ty Ty d B (Elaborate.liftStore (Ty.mkCon name args))
      (Elaborate.liftStore (Ty.mkCon name args)) id fun t => upTo n t.vars :=
  L.assemble (Store.quiet_mkCon name args) (fun _ => Store.assembles_mkCon name args) h

theorem ensure (p : Store → Bool) : J Unit Unit d B (ensure p) (ensure p) id fun _ => [] := by
  unfold Elaborate.ensure
  exact L.after L.store fun s => ite (L.pure rfl (List.nil_subset _)) L.crash

theorem instantiate (hn : base n) {σ : Scheme} (h : upTo n σ.type.vars ⊆ B) :
    J Ty Ty d B (instantiate n σ) (instantiate n σ) id fun t => upTo n t.vars := by
  unfold Elaborate.instantiate
  refine L.after (L.ensure _) fun _ => ?_
  refine L.liftStore (Store.quiet_instantiate n σ) fun hbase s hs hidle hbs => ?_
  have h := Store.instantiate_within (hbase n hn) hs hidle (hbs.upTo (by simpa using h))
  exact ⟨h.1, Store.keeps_upTo.mpr h.2⟩

/-! ## Types -/

/-- Type variables may be used: the parameters `params`, or explicit variables. -/
def Fits (inner : Int → Prop) (d : Nat) (n : Int) (B : List Bound) : Option (LabelMap Var) → Prop
  | some params => upTo n (params.map (·.2)) ⊆ B
  | none => d ≠ 0 ∧ inner n

omit L in
theorem Fits.mono {params : Option (LabelMap Var)} (h : Fits inner d n B params) (hsub : B ⊆ C) :
    Fits inner d n C params := by
  cases params with
  | some params => exact List.Subset.trans h hsub
  | none => exact h

theorem typeVariableIn {params : Option (LabelMap Var)} (h : Fits inner d n B params)
    (name : String) : J Ty Ty d B (Elaborate.typeVariable params pos name)
      (Elaborate.typeVariable params pos name) id fun t => upTo n t.vars := by
  cases params with
  | none => exact L.typeVariable h.1 h.2 pos name
  | some params =>
    simp only [Elaborate.typeVariable]
    cases hfind : LabelMap.find? params name with
    | some v =>
      have hv : v ∈ params.map (·.2) := List.mem_map_of_mem (LabelMap.mem_of_lookup hfind)
      exact L.pure rfl (upTo_subset_iff.mpr fun u hu =>
        List.mem_singleton.mp hu ▸ upTo_subset_iff.mp h v hv)
    | none => exact L.fail _ _ rfl

theorem typeConstructor (henv : env.Alike exact env') (hover : env.Over n B) (name : String)
    (count : Nat) : J TypeEntry TypeEntry d B (typeConstructor env pos name count)
      (typeConstructor env' pos name count) id fun e => upTo n e.vars := by
  unfold Elaborate.typeConstructor
  rw [henv.type?]
  cases htype : env.type? name with
  | none => exact L.fail _ _ rfl
  | some entry => exact ite (L.pure rfl (hover.type? htype)) (L.fail _ _ rfl)

theorem applyType (hn : base n) {entry : TypeEntry} {args : List Ty}
    (h : upTo n (entry.vars ++ Ty.varsList args) ⊆ B) :
    J Ty Ty d B (applyType n entry args) (applyType n entry args) id fun t => upTo n t.vars := by
  rw [upTo_append, List.append_subset] at h
  have hcon : J Ty Ty d B (Elaborate.liftStore (Ty.mkCon entry.name args))
      (Elaborate.liftStore (Ty.mkCon entry.name args)) id fun t => upTo n t.vars := L.mkCon h.2
  unfold Elaborate.applyType
  unfold TypeEntry.vars at h
  cases hmeaning : entry.meaning with
  | abbreviation ps body =>
    rw [hmeaning] at h
    refine ite (L.pure rfl h.1) (L.after (L.ensure _) fun _ =>
      L.liftStore (Store.quiet_instantiateWith n ps args body) ?_)
    intro hbase s hs hidle hbs
    rw [List.nil_append] at hbs
    have hwithin := Store.instantiateWith_within (hbase n hn) hs hidle ps
      (Store.withinVar_list.mp (hbs.upTo h.2)) (hbs.upTo h.1)
    exact ⟨hwithin.1, Store.keeps_upTo.mpr hwithin.2⟩
  | _ => exact hcon

mutual

theorem elaborateType (hn : base n) (henv : env.Alike exact env') {params : Option (LabelMap Var)} :
    (t : TypeExpr) → {B : List Bound} → env.Over n B → Fits inner d n B params →
    J Ty Ty d B (elaborateType env n params t) (elaborateType env' n params t) id
      fun t => upTo n t.vars
  | .var pos name, B, _, hparams => L.typeVariableIn hparams name
  | .con pos name args, B, hover, hparams => by
    unfold Elaborate.elaborateType
    refine L.after (L.typeConstructor henv hover name _) fun entry => ?_
    refine L.after (elaborateTypes hn henv args (hover.mono (by simp)) (hparams.mono (by simp)))
      fun ts => L.applyType hn (by simp)
  | .arrow _ arg result, B, hover, hparams => by
    unfold Elaborate.elaborateType
    refine L.after (elaborateType hn henv arg hover hparams) fun a => ?_
    refine L.after (elaborateType hn henv result (hover.mono (by simp)) (hparams.mono (by simp)))
      fun r => L.mkArrow (by simp)
  | .tuple _ elems, B, hover, hparams => by
    unfold Elaborate.elaborateType
    exact L.after (elaborateTypes hn henv elems hover hparams) fun ts => L.mkTuple (by simp)
  | .record pos fields, B, hover, hparams => by
    unfold Elaborate.elaborateType
    refine L.after (elaborateTypeFields hn henv pos [] fields hover hparams
      (by simp [Ty.varsFields])) fun labels => L.mkRecord (by simp [Ty.vars])

theorem elaborateTypes (hn : base n) (henv : env.Alike exact env')
    {params : Option (LabelMap Var)} : (ts : List TypeExpr) → {B : List Bound} → env.Over n B →
    Fits inner d n B params →
    J (List Ty) (List Ty) d B (elaborateTypes env n params ts) (elaborateTypes env' n params ts) id
      fun ts => upTo n (Ty.varsList ts)
  | [], _, _, _ => L.pure rfl (by simp [Ty.varsList])
  | t :: ts, B, hover, hparams => by
    unfold Elaborate.elaborateTypes
    refine L.after (elaborateType hn henv t hover hparams) fun t => ?_
    refine L.after (elaborateTypes hn henv ts (hover.mono (by simp)) (hparams.mono (by simp)))
      fun ts => L.pure rfl (by simp [Ty.varsList])

theorem elaborateTypeFields (hn : base n) (henv : env.Alike exact env')
    {params : Option (LabelMap Var)} (pos : Pos) (labels : LabelMap Ty) :
    (fields : List (String × TypeExpr)) → {B : List Bound} → env.Over n B →
    Fits inner d n B params → upTo n (Ty.varsFields labels) ⊆ B →
    J (LabelMap Ty) (LabelMap Ty) d B (elaborateTypeFields env n params pos labels fields)
      (elaborateTypeFields env' n params pos labels fields) id fun fs => upTo n (Ty.varsFields fs)
  | [], _, _, _, hlabels => L.pure rfl hlabels
  | (label, t) :: fields, B, hover, hparams, hlabels => by
    unfold Elaborate.elaborateTypeFields
    refine ite L.fail_bind (L.after (elaborateType hn henv t hover hparams) fun t => ?_)
    exact elaborateTypeFields hn henv pos _ fields (hover.mono (by simp)) (hparams.mono (by simp))
      (by simp [Ty.varsFields, Ty.varsFields_append, hlabels])

end

omit L in
theorem liftStore_seq {act : StoreM α} {f : α → StoreM PUnit} :
    (Elaborate.liftStore act >>= fun a => Elaborate.liftStore (f a) >>= fun _ => k a) =
      Elaborate.liftStore (do let a ← act; f a; return a) >>= k := rfl

/-- The parameters of a type are quantified from the start. -/
theorem typeParams (hn : base n) (names : List String) (params : LabelMap Var)
    (h : upTo n (params.map (·.2)) ⊆ B) : J (LabelMap Var) (LabelMap Var) d B
      (typeParams pos params names) (typeParams pos params names) id
      fun ps => upTo n (ps.map (·.2)) := by
  induction names generalizing B params with
  | nil => exact L.pure rfl h
  | cons name names ih =>
    unfold Elaborate.typeParams
    rw [liftStore_seq]
    refine ite L.fail_bind ?_
    have hparam : J Var Var d B
        (Elaborate.liftStore (do
          let v ← Store.fresh 0
          modify fun s => s.setState v .generic
          return v))
        (Elaborate.liftStore (do
          let v ← Store.fresh 0
          modify fun s => s.setState v .generic
          return v)) id fun v => upTo n [v] := by
      refine L.liftStore ((Store.quiet_fresh 0).seq (Store.quiet_setState · .generic))
        fun hbase s hs _ _ => ?_
      have hunbound : (Ty.fresh 0 s).2.state s.size = .unbound 0 := by
        rw [Store.state_fresh, if_pos rfl]
        rfl
      have hfresh := Store.fresh_advances hs 0
      have hquantified := (Store.lowered_setState (Or.inr ⟨0, hunbound, Or.inl rfl⟩)).advances
        hfresh.regular
      refine ⟨hfresh.trans hquantified, Store.keeps_upTo.mpr (Store.within_var.mpr ?_)⟩
      exact (Store.withinVar_fresh (Int.le_refl 0) (hbase n hn) s).advance hquantified
    refine L.after hparam fun v => ih _ ?_
    simp [h]

/-! ## Patterns -/

theorem constructor (henv : env.Alike exact env') (hover : env.Over n B) (name : String) :
    J (Con × Scheme) (Con × Scheme) d B (constructor env pos name) (constructor env' pos name) id
      fun c => upTo n c.2.type.vars := by
  unfold Elaborate.constructor
  rw [henv.value?]
  cases hvalue : env.value? name with
  | none => exact L.fail _ _ rfl
  | some entry =>
    cases hcon : entry.con? with
    | none =>
      simp only [hcon]
      exact L.fail _ _ rfl
    | some con =>
      simp only [hcon]
      exact L.pure rfl (hover.value? hvalue)

/-- What expressions and patterns are elaborated in: inside of value declarations, at a level for
explicit type variables, where names mean the same and types are within the level. -/
structure Scope (inner : Int → Prop) (Q : Env → Prop) (d : Nat) (n : Int) (B : List Bound)
    (exact : Bool) (env env' : Env) : Prop where
  depth : d ≠ 0
  level : inner n
  known : Q env
  alike : env.Alike exact env'
  within : env.Over n B

omit L in
theorem Scope.mono (h : Scope inner Q d n B exact env env') (hsub : B ⊆ C) :
    Scope inner Q d n C exact env env' :=
  ⟨h.depth, h.level, h.known, h.alike, h.within.mono hsub⟩

/-- An explicit type, whose type variables may be brought into scope. -/
theorem annotation (h : Scope inner Q d n B exact env env') (t : TypeExpr) :
    J Ty Ty d B (Elaborate.elaborateType env n none t) (Elaborate.elaborateType env' n none t) id
      fun t => upTo n t.vars :=
  L.elaborateType (L.base_of_inner h.level) h.alike t h.within
    (show Fits inner d n B none from ⟨h.depth, h.level⟩)

omit L in
theorem vars_literalType (k : LiteralKind) : (literalType k).vars = [] := by
  cases k <;> rfl

theorem conPattern {con : Con} {arg : Option (Pattern Note)}
    (h : upTo n (t.vars ++ arg.toList.flatMap (·.type.vars)) ⊆ B) :
    J (Pattern Note) (Pattern Note) d B (conPattern pos con t arg) (conPattern pos con t arg) id
      fun p => upTo n p.type.vars := by
  rw [upTo_append, List.append_subset] at h
  unfold Elaborate.conPattern
  split
  · exact L.fail _ _ rfl
  · exact L.fail _ _ rfl
  · exact L.pure rfl h.1
  · rename_i p _
    refine L.after (L.getStore [(n, t)] (by simpa using h.1)) fun s => ?_
    simp only [List.flatMap_cons, List.flatMap_nil, List.append_nil]
    split
    · rename_i m a r hhead
      rw [hhead]
      refine L.after (L.unify n ?_) fun _ => L.pure rfl ?_
      · simp_all [Ty.vars]
      · show upTo n r.vars ⊆ _
        simp [Ty.vars]
    · exact L.pure rfl (List.subset_append_left _ _)

theorem listPattern {nil cons : Con} {elem list : Ty} (h : upTo n (elem.vars ++ list.vars) ⊆ B)
    (ps : List (Pattern Note)) :
    J (Pattern Note) (Pattern Note) d B (listPattern pos nil cons elem list ps)
      (listPattern pos nil cons elem list ps) id fun p => upTo n p.type.vars := by
  rw [upTo_append, List.append_subset] at h
  induction ps with
  | nil => exact L.pure rfl h.2
  | cons p ps ih =>
    refine L.after ih fun tail => L.after (L.mkTuple (n := n) ?_) fun pair => L.pure rfl ?_
    · simp_all [Ty.varsList]
    · show upTo n list.vars ⊆ _
      simp [h.2]

/-- A pattern collects variables whose types are within level `n`. -/
def Collects (J : Judgement) (d : Nat) (n : Int) (B : List Bound) (m m' : PatternM α)
    (q : α → List Bound) : Prop :=
  ∀ vars, J (α × PatternVars) (α × PatternVars) d (upTo n (Ty.varsFields vars) ++ B) (m vars)
    (m' vars) id fun r => q r.1 ++ upTo n (Ty.varsFields r.2)

theorem collected {m m' : PatternM α} (h : Collects J d n B m m' q) :
    J (α × PatternVars) (α × PatternVars) d B (m.run []) (m'.run []) id
      fun r => q r.1 ++ upTo n (Ty.varsFields r.2) :=
  L.widen (h []) (by simp [Ty.varsFields])

theorem collectBind {m m' : PatternM α} {k : α → PatternM β} (hm : Collects J d n B m m' q)
    (hk : ∀ a, Collects J d n (q a ++ B) (k a) (k' a) q') :
    Collects J d n B (m >>= k) (m' >>= k') q' :=
  fun vars => L.after (hm vars) fun (a, vars') => L.widen (hk a vars') (by grind)

theorem collectLift (h : J α α d B m m' id q) : Collects J d n B (liftM m) (liftM m') q := by
  intro vars
  refine L.after (L.widen h (by simp)) fun a => L.pure rfl ?_
  show q a ++ upTo n (Ty.varsFields vars) ⊆ _
  simp

theorem collectAfter {k : α → PatternM β} (hm : J α α d B m m' id q)
    (hk : ∀ a, Collects J d n (q a ++ B) (k a) (k' a) q') :
    Collects J d n B (liftM m >>= k) (liftM m' >>= k') q' :=
  L.collectBind (L.collectLift hm) hk

theorem collectPure {a : α} (h : q a ⊆ B) : Collects J d n B (Pure.pure a) (Pure.pure a) q :=
  fun vars => L.pure rfl (show q a ++ upTo n (Ty.varsFields vars) ⊆ _ by simp [h])

theorem collectFail {p : Problem} {k : α → PatternM β} (hp : p.missing? = none := by rfl) :
    Collects J d n B ((failPattern pos p : PatternM α) >>= k) (failPattern pos p >>= k') q' :=
  fun _ => L.fail pos p hp

theorem bindVar (h : upTo n t.vars ⊆ B) (name : String) :
    Collects J d n B (bindVar pos name t) (bindVar pos name t) fun _ => [] := by
  intro vars
  have hrun : Elaborate.bindVar pos name t vars = (if LabelMap.has vars name then (do
      failPattern pos (.repeatedVariable name)
      set (vars ++ [(name, t)])) else set (vars ++ [(name, t)]) : PatternM Unit) vars := rfl
  rw [hrun]
  split
  · exact L.fail _ _ rfl
  · refine L.pure rfl (show [] ++ upTo n (Ty.varsFields (vars ++ [(name, t)])) ⊆ _ from ?_)
    simp [Ty.varsFields, Ty.varsFields_append, h]

section Patterns

/-- The variables of the types of fields. -/
def patternFieldVars (fs : List (String × Pattern Note)) : List Var :=
  Ty.varsFields (fs.map fun f => (f.1, f.2.type))

mutual

theorem elaboratePattern : (p : Source.Pattern) → {B : List Bound} →
    Scope inner Q d n B exact env env' →
    Collects J d n B (elaboratePattern env n p) (elaboratePattern env' n p)
      fun p => upTo n p.type.vars
  | .wildcard pos, B, h => by
    unfold Elaborate.elaboratePattern
    refine L.collectAfter (L.freshType (L.base_of_inner h.level)) fun t => ?_
    exact L.collectPure (show upTo n t.vars ⊆ _ by simp)
  | .var pos name, B, h => by
    unfold Elaborate.elaboratePattern
    rw [h.alike.value?]
    have hvar : Collects J d n B (do
        let t ← Elaborate.freshType n
        Elaborate.bindVar pos name t
        return (.var ⟨pos, t⟩ name : Pattern Note)) (do
        let t ← Elaborate.freshType n
        Elaborate.bindVar pos name t
        return .var ⟨pos, t⟩ name) fun p => upTo n p.type.vars := by
      refine L.collectAfter (L.freshType (L.base_of_inner h.level)) fun t => ?_
      refine L.collectBind (L.bindVar (by simp) name) fun _ => ?_
      exact L.collectPure (show upTo n t.vars ⊆ _ by simp)
    cases hvalue : env.value? name with
    | none => exact hvar
    | some entry =>
      cases hcon : entry.con? with
      | none =>
        simp only [Option.bind_some, hcon, Option.map_none]
        exact hvar
      | some con =>
        simp only [Option.bind_some, hcon, Option.map_some]
        refine L.collectAfter (L.instantiate (L.base_of_inner h.level)
          (h.within.value? hvalue)) fun t => ?_
        exact L.collectLift (L.conPattern (by simp))
  | .literal pos lit, B, h => by
    unfold Elaborate.elaboratePattern
    split
    · exact L.collectFail
    · exact L.collectPure (show upTo n (literalType lit.kind).vars ⊆ _ by simp [vars_literalType])
  | .con pos name none, B, h => by
    unfold Elaborate.elaboratePattern
    refine L.collectAfter (L.constructor h.alike h.within name) fun (con, σ) => ?_
    refine L.collectAfter (L.instantiate (L.base_of_inner h.level) (by simp)) fun t => ?_
    exact L.collectLift (L.conPattern (by simp))
  | .con pos name (some arg), B, h => by
    unfold Elaborate.elaboratePattern
    refine L.collectAfter (L.constructor h.alike h.within name) fun (con, σ) => ?_
    refine L.collectAfter (L.instantiate (L.base_of_inner h.level) (by simp)) fun t => ?_
    refine L.collectBind (elaboratePattern arg (h.mono (by simp))) fun p => ?_
    exact L.collectLift (L.conPattern (by simp))
  | .tuple pos elems, B, h => by
    unfold Elaborate.elaboratePattern
    refine L.collectBind (elaboratePatterns elems h) fun ps => ?_
    split
    · rename_i p
      exact L.collectPure (show upTo n p.type.vars ⊆ _ by simp [Ty.varsList])
    · refine L.collectAfter (L.mkTuple (n := n) (by simp)) fun t => ?_
      exact L.collectPure (show upTo n t.vars ⊆ _ by simp)
  | .record pos fields flexible, B, h => by
    unfold Elaborate.elaboratePattern
    refine L.collectBind (elaboratePatternFields pos [] fields h
      (by simp [patternFieldVars, Ty.varsFields])) fun fs => ?_
    -- the record type, once its row is known
    have hrecord : ∀ row, Collects J d n (upTo n row.vars ++ (upTo n (patternFieldVars fs) ++ B))
        (do
          let t ← Elaborate.liftStore (Ty.mkRecord (fs.map fun f => (f.1, f.2.type)) row)
          return .record ⟨pos, t⟩ fs flexible : PatternM (Pattern Note))
        (do
          let t ← Elaborate.liftStore (Ty.mkRecord (fs.map fun f => (f.1, f.2.type)) row)
          return .record ⟨pos, t⟩ fs flexible) fun p => upTo n p.type.vars := by
      intro row
      refine L.collectAfter (L.mkRecord (n := n) (by simp [patternFieldVars])) fun t => ?_
      exact L.collectPure (show upTo n t.vars ⊆ _ by simp)
    split
    · exact L.collectAfter (L.freshType (L.base_of_inner h.level)) hrecord
    · exact L.collectBind (L.collectPure (by simp [Ty.vars])) hrecord
  | .layered pos name pattern, B, h => by
    unfold Elaborate.elaboratePattern
    rw [h.alike.isConstructor]
    split
    · exact L.collectFail
    · refine L.collectBind (elaboratePattern pattern h) fun p => ?_
      refine L.collectBind (L.bindVar (by simp) name) fun _ => ?_
      exact L.collectPure (show upTo n p.type.vars ⊆ _ by simp)
  | .list pos elems, B, h => by
    unfold Elaborate.elaboratePattern
    refine L.collectAfter (L.constructor h.alike h.within "nil") fun (nil, _) => ?_
    refine L.collectAfter (L.constructor h.alike (h.within.mono (by simp)) "::")
      fun (cons, _) => ?_
    refine L.collectAfter (L.freshType (L.base_of_inner h.level)) fun elem => ?_
    refine L.collectAfter (L.mkCon (n := n) (by simp [Ty.varsList])) fun list => ?_
    refine L.collectBind (elaborateElements elem elems (h.mono (by grind)) (by simp))
      fun ps => ?_
    exact L.collectLift (L.listPattern (by simp) ps)
  | .annot pos pattern type, B, h => by
    unfold Elaborate.elaboratePattern
    refine L.collectBind (elaboratePattern pattern h) fun p => ?_
    refine L.collectAfter (L.annotation (h.mono (by simp)) type)
      fun t => ?_
    refine L.collectAfter (L.unify n (by simp)) fun _ => ?_
    exact L.collectPure (by simp)

theorem elaboratePatterns : (ps : List Source.Pattern) → {B : List Bound} →
    Scope inner Q d n B exact env env' →
    Collects J d n B (elaboratePatterns env n ps) (elaboratePatterns env' n ps)
      fun ps => upTo n (Ty.varsList (ps.map Pattern.type))
  | [], B, h => by
    unfold Elaborate.elaboratePatterns
    exact L.collectPure (by simp [Ty.varsList])
  | p :: ps, B, h => by
    unfold Elaborate.elaboratePatterns
    refine L.collectBind (elaboratePattern p h) fun p' => ?_
    refine L.collectBind (elaboratePatterns ps (h.mono (by simp))) fun ps' => ?_
    exact L.collectPure (by simp [Ty.varsList])

theorem elaborateElements (elem : Ty) : (ps : List Source.Pattern) → {B : List Bound} →
    Scope inner Q d n B exact env env' → upTo n elem.vars ⊆ B →
    Collects J d n B (elaborateElements env n elem ps) (elaborateElements env' n elem ps)
      fun _ => []
  | [], B, _, _ => by
    unfold Elaborate.elaborateElements
    exact L.collectPure (by simp)
  | p :: ps, B, h, helem => by
    unfold Elaborate.elaborateElements
    refine L.collectBind (elaboratePattern p h) fun p' => ?_
    refine L.collectAfter (L.unify n (by simp [helem])) fun _ => ?_
    refine L.collectBind (elaborateElements elem ps (h.mono (by simp)) (by simp [helem]))
      fun _ => ?_
    exact L.collectPure (by simp)

theorem elaboratePatternFields (pos : Pos) (done : List (String × Pattern Note)) :
    (fields : List (String × Source.Pattern)) → {B : List Bound} →
    Scope inner Q d n B exact env env' →
    upTo n (patternFieldVars done) ⊆ B →
    Collects J d n B (elaboratePatternFields env n pos done fields)
      (elaboratePatternFields env' n pos done fields) fun fs => upTo n (patternFieldVars fs)
  | [], B, _, hdone => by
    unfold Elaborate.elaboratePatternFields
    exact L.collectPure hdone
  | (label, p) :: fields, B, h, hdone => by
    unfold Elaborate.elaboratePatternFields
    split
    · exact L.collectFail
    · refine L.collectBind (elaboratePattern p h) fun p' => ?_
      refine elaboratePatternFields pos (done ++ [(label, p')]) fields (h.mono (by simp)) ?_
      simp_all [patternFieldVars, Ty.varsFields, Ty.varsFields_append]

end

theorem elaborateParams (ps : List Source.Pattern) (ts : List Ty)
    (h : Scope inner Q d n B exact env env') (hts : upTo n (Ty.varsList ts) ⊆ B) :
    Collects J d n B (elaborateParams env n ps ts) (elaborateParams env' n ps ts)
      fun _ => [] := by
  induction ps generalizing ts B with
  | nil =>
    unfold Elaborate.elaborateParams
    exact L.collectPure (List.nil_subset _)
  | cons p ps ih =>
    cases ts with
    | nil =>
      unfold Elaborate.elaborateParams
      exact L.collectPure (List.nil_subset _)
    | cons t ts =>
      simp only [Ty.varsList, upTo_append, List.append_subset] at hts
      unfold Elaborate.elaborateParams
      refine L.collectBind (L.elaboratePattern p h) fun p' => ?_
      refine L.collectAfter (L.unify n (by simp [hts.1])) fun _ => ?_
      refine L.collectBind (ih ts (h.mono (by simp)) (by simp [hts.2])) fun _ => ?_
      exact L.collectPure (List.nil_subset _)

end Patterns

/-! ## Matches -/

theorem reportRedundant (patterns : List (Pattern Note)) (r : Match.Result) :
    J Unit Unit d B (reportRedundant patterns r) (reportRedundant patterns r) id fun _ => [] := by
  unfold Elaborate.reportRedundant
  exact L.read (fun _ _ _ => rfl) fun cfg =>
    ite (L.forM fun _ => L.report _ _ _ rfl) (L.pure rfl (List.nil_subset _))

theorem compileMatch (site : MatchSite) (clauses : List (Match.Clause Note)) (scrutinee : Ty) :
    J Match.Result Match.Result d B (compileMatch site pos clauses scrutinee)
      (compileMatch site pos clauses scrutinee) id fun _ => [] := by
  unfold Elaborate.compileMatch
  refine L.after L.store fun s => ?_
  split
  · exact L.crash
  · exact L.fail _ _ rfl
  · rename_i r _
    have hmissing : J Unit Unit d B (reportMissing site pos r) (reportMissing site pos r) id
        fun _ => [] := by
      unfold reportMissing
      exact ite (L.read (fun _ _ _ => rfl) fun cfg => L.report _ _ _ rfl)
        (L.pure rfl (List.nil_subset _))
    exact L.after (L.trace _ _) fun _ => L.after hmissing fun _ =>
      L.after (L.reportRedundant _ r) fun _ => L.pure rfl (List.nil_subset _)

theorem traceBindings (bindings : List Binding) :
    J PUnit PUnit d B (traceBindings bindings) (traceBindings bindings) id fun _ => [] :=
  L.forM fun _ => L.after L.store fun _ => L.trace _ _

end Steps

end Elaborate

end Typecase
