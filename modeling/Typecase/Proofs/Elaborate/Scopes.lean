import Typecase.Proofs.Environment
import Typecase.Proofs.Types.Quantify
set_option autoImplicit false

/-!
# Levels of environments

An environment lies within a level if no variable that is free in it is deeper.  Quantifying a
type at that level then touches nothing that is free in the environment, so the check for such
variables never fails.
-/

namespace Typecase

theorem Ty.varsFields_append (fs gs : List (String × Ty)) :
    varsFields (fs ++ gs) = varsFields fs ++ varsFields gs := by
  induction fs with
  | nil => rfl
  | cons f fs ih => simp [varsFields, ih]

theorem Datatype.vars_type (d : Datatype) : d.type.vars ⊆ d.params := by
  unfold Datatype.type
  split
  · exact List.nil_subset _
  · intro v hv
    obtain ⟨t, ht, hvt⟩ := Ty.mem_varsList.mp hv
    obtain ⟨w, hw, rfl⟩ := List.mem_map.mp ht
    rw [Ty.vars, List.mem_singleton] at hvt
    exact hvt ▸ hw

theorem Datatype.vars_scheme (d : Datatype) (c : Constructor) :
    (d.scheme c).type.vars ⊆ d.params ++ c.arg.toList.flatMap Ty.vars := by
  unfold Datatype.scheme
  cases c.arg with
  | none => exact List.subset_append_of_subset_left _ (vars_type d)
  | some t =>
    refine List.append_subset.mpr ⟨by simp, ?_⟩
    exact List.subset_append_of_subset_left _ (vars_type d)

/-- The variables behind a type name. -/
def TypeEntry.vars (e : TypeEntry) : List Var :=
  match e.meaning with
  | .primitive => []
  | .datatype d => d.params
  | .abbreviation _ body => body.vars

/-- No variable of a type constructor is deeper than level `n`. -/
def TypeEntry.Within (s : Store) (n : Int) (e : TypeEntry) : Prop := ∀ v ∈ e.vars, s.WithinVar n v

/-- No variable of an environment is deeper than level `n`. -/
structure Env.Within (s : Store) (n : Int) (env : Env) : Prop where
  values : ∀ f ∈ env.frames, ∀ e ∈ f.values, s.Within n e.2.scheme.type
  types : ∀ f ∈ env.frames, ∀ e ∈ f.types, e.2.Within s n

/-! ## Bounds -/

/-- A variable and a level that it must not exceed. -/
abbrev Bound := Int × Var

/-- The bounds that keep variables within level `n`. -/
def upTo (n : Int) (vs : List Var) : List Bound := vs.map fun v => (n, v)

@[simp]
theorem upTo_nil (n : Int) : upTo n [] = [] := by
  simp [upTo]

@[simp, grind =]
theorem upTo_append (n : Int) (vs us : List Var) : upTo n (vs ++ us) = upTo n vs ++ upTo n us :=
  List.map_append

theorem upTo_mono {n : Int} {vs us : List Var} (h : vs ⊆ us) : upTo n vs ⊆ upTo n us :=
  List.map_subset _ h

theorem upTo_varsList (n : Int) (ts : List Ty) :
    upTo n (Ty.varsList ts) = ts.flatMap fun t => upTo n t.vars := by
  induction ts with
  | nil => rfl
  | cons t ts ih => simp [Ty.varsList, ih]

theorem upTo_subset_iff {n : Int} {vs : List Var} {B : List Bound} :
    upTo n vs ⊆ B ↔ ∀ v ∈ vs, (n, v) ∈ B := List.forall_mem_map

/-- All bounds are kept. -/
def Store.Keeps (s : Store) (B : List Bound) : Prop := ∀ b ∈ B, s.WithinVar b.1 b.2

namespace Store

variable {s s' : Store} {n : Int} {vs : List Var} {B : List Bound}

theorem Keeps.advance (h : s.Keeps B) (ha : s.Advances s') : s'.Keeps B :=
  fun b hb => (h b hb).advance ha

theorem keeps_upTo : s.Keeps (upTo n vs) ↔ ∀ v ∈ vs, s.WithinVar n v := List.forall_mem_map

theorem Keeps.upTo (h : s.Keeps B) (hvs : upTo n vs ⊆ B) : ∀ v ∈ vs, s.WithinVar n v :=
  keeps_upTo.mp fun b hb => h b (hvs hb)

end Store

namespace Env

variable {s s' : Store} {n : Int} {env other : Env} {B C : List Bound} {name : String}

/-- The variables of all entries. -/
def vars (env : Env) : List Var :=
  env.frames.flatMap fun f =>
    f.values.flatMap (fun e => e.2.scheme.type.vars) ++ f.types.flatMap fun e => e.2.vars

/-- The bounds say that the environment lies within level `n`. -/
def Over (n : Int) (B : List Bound) (env : Env) : Prop := upTo n env.vars ⊆ B

theorem forall_mem_vars {Q : Var → Prop} : (∀ x ∈ env.vars, Q x) ↔
    env.All (fun _ v => ∀ x ∈ v.scheme.type.vars, Q x) fun _ t => ∀ x ∈ t.vars, Q x := by
  unfold vars
  simp only [List.forall_mem_flatMap, List.forall_mem_append]
  exact ⟨fun h => ⟨fun f hf => (h f hf).1, fun f hf => (h f hf).2⟩,
    fun h f hf => ⟨h.values f hf, h.types f hf⟩⟩

theorem over_iff : env.Over n B ↔
    env.All (fun _ v => upTo n v.scheme.type.vars ⊆ B) fun _ t => upTo n t.vars ⊆ B := by
  unfold Over
  simp only [upTo_subset_iff]
  exact forall_mem_vars

theorem over_vars : env.Over n (upTo n env.vars ++ B) := List.subset_append_left _ _

section Over

variable (h : env.Over n B)
include h

theorem Over.mono (hsub : B ⊆ C) : env.Over n C :=
  List.Subset.trans h hsub

theorem Over.scope : env.scope.Over n B := over_iff.mpr (over_iff.mp h).scope

theorem Over.bindValue {v : ValueEntry} (hv : upTo n v.scheme.type.vars ⊆ B) :
    (env.bindValue name v).Over n B :=
  over_iff.mpr ((over_iff.mp h).bindValue hv)

theorem Over.bind {σ : Scheme} (hσ : upTo n σ.type.vars ⊆ B) : (env.bind name σ).Over n B :=
  h.bindValue hσ

theorem Over.bindType {t : TypeEntry} (ht : upTo n t.vars ⊆ B) : (env.bindType name t).Over n B :=
  over_iff.mpr ((over_iff.mp h).bindType ht)

theorem Over.adopt (h' : other.Over n B) : (env.adopt other).Over n B :=
  over_iff.mpr ((over_iff.mp h).adopt (over_iff.mp h'))

theorem Over.value? {v : ValueEntry} (hv : env.value? name = some v) :
    upTo n v.scheme.type.vars ⊆ B := (over_iff.mp h).value? hv

theorem Over.type? {t : TypeEntry} (ht : env.type? name = some t) :
    upTo n t.vars ⊆ B := (over_iff.mp h).type? ht

/-- Entries are added one after the other. -/
theorem Over.foldl {α : Type} {f : Env → α → Env} {as : List α}
    (hf : ∀ a ∈ as, ∀ env : Env, env.Over n B → (f env a).Over n B) : (as.foldl f env).Over n B :=
  List.foldlRecOn as f h fun env henv a ha => hf a ha env henv

end Over

theorem within_iff : env.Within s n ↔ s.Keeps (upTo n env.vars) :=
  ⟨fun h => Store.keeps_upTo.mpr (forall_mem_vars.mpr ⟨h.values, h.types⟩), fun h =>
    have hall := forall_mem_vars.mp (Store.keeps_upTo.mp h)
    ⟨hall.values, hall.types⟩⟩

theorem Over.within (h : env.Over n B) (hbs : s.Keeps B) : env.Within s n :=
  within_iff.mpr fun b hb => hbs b (h hb)

theorem Within.advance (h : env.Within s n) (ha : s.Advances s') : env.Within s' n :=
  within_iff.mpr ((within_iff.mp h).advance ha)

theorem Within.scope (h : env.Within s n) : env.scope.Within s n :=
  (Over.scope (List.Subset.refl _)).within (within_iff.mp h)

theorem Within.bind (h : env.Within s n) {σ : Scheme} (hσ : s.Within n σ.type) :
    (env.bind name σ).Within s n := by
  have hover : env.Over n (upTo n env.vars ++ upTo n σ.type.vars) := over_vars
  exact (hover.bind (List.subset_append_right _ _)).within
    (List.forall_mem_append.mpr ⟨within_iff.mp h, Store.keeps_upTo.mpr hσ⟩)

/-- A number that is free in an environment belongs to a variable at level `n` or lower. -/
theorem Within.freeIds (h : env.Within s n) {i : Int} (hi : i ∈ env.freeIds s) :
    ∃ u l, s.id u = i ∧ s.state u = .unbound l ∧ l ≤ n := by
  unfold Env.freeIds at hi
  obtain ⟨f, hf, hi⟩ := List.mem_flatMap.mp hi
  obtain ⟨e, he, hi⟩ := List.mem_flatMap.mp hi
  obtain ⟨u, hu, rfl⟩ := List.mem_map.mp hi
  obtain ⟨hreach, hunbound⟩ := List.mem_filter.mp hu
  obtain ⟨v, hv, hvu⟩ := (Store.reach_of_mem_reachAt hreach).source
  cases hstate : s.state u with
  | unbound l => exact ⟨u, l, rfl, hstate, (h.values f hf e he v hv).2 u l hvu hstate⟩
  | _ =>
    rw [hstate] at hunbound
    cases hunbound

end Env

end Typecase
