import Typecase.Proofs.Types.Trail
set_option autoImplicit false

/-!
# What a unification is made of

A unification looks at the variables, gives up, or changes the store in one of four ways: it
lowers a variable, binds one, allocates one, or makes a node.  Whatever these steps share and
composition keeps is true of every unification, however it goes.
-/

namespace Typecase.Store

/-- The store without what is recorded of its changes. -/
def bare (s : Store) : Store := { s with speculative := false, trail := [] }

@[simp] theorem state_bare (s : Store) (v : Var) : s.bare.state v = s.state v := rfl

@[simp] theorem head_bare (s : Store) (t : Ty) : s.bare.head t = s.head t := by
  have hat : ∀ n t, s.bare.headAt n t = s.headAt n t := by
    intro n
    induction n with
    | zero => intro t; cases t <;> rfl
    | succ n ih =>
      intro t
      cases t with
      | var v =>
        rw [headAt, headAt, state_bare]
        cases s.state v with
        | linked u => exact ih u
        | _ => rfl
      | _ => rfl
  exact hat s.size t

@[simp] theorem reach_bare (s : Store) (t : Ty) : s.bare.reach t = s.reach t := by
  have hat : ∀ n t, s.bare.reachAt n t = s.reachAt n t := by
    intro n
    induction n with
    | zero => exact fun _ => rfl
    | succ n ih =>
      intro t
      simp only [reachAt, state_bare, ih]
  exact hat s.size t

@[simp] theorem flattenRow_bare (s : Store) (t : Ty) : s.bare.flattenRow t = s.flattenRow t := by
  have hwith : ∀ follow acc t, s.bare.flattenWith follow acc t = s.flattenWith follow acc t := by
    intro follow acc t
    fun_induction s.flattenWith follow acc t with simp_all [flattenWith]
  have hat : ∀ n acc t, s.bare.flattenAt n acc t = s.flattenAt n acc t := by
    intro n
    induction n with
    | zero => exact hwith _
    | succ n ih =>
      intro acc t
      rw [flattenAt, flattenAt, hwith, funext fun acc => funext (ih acc)]
  exact hat s.size [] t

/-- A property of computations that does not concern the store, and that composition keeps. -/
structure Chains (P : {α : Type} → UnifyM α → Prop) : Prop where
  pure : ∀ {α : Type} (a : α), P (pure a : UnifyM α)
  throw : ∀ {α : Type} (e : UnifyError), P (throw e : UnifyM α)
  bind : ∀ {α β : Type} {m : UnifyM α} {k : α → UnifyM β}, P m → (∀ a, P (k a)) → P (m >>= k)
  /-- What is done may depend on the store, but not on what is recorded of its changes. -/
  look : ∀ {α : Type} {k : Store → UnifyM α}, (∀ s, k s.bare = k s) → (∀ s, P (k s)) →
    P (do k (← getThe Store))

/-- A property of computations that the steps of a unification have, and that composition
keeps. -/
structure Composes (P : {α : Type} → UnifyM α → Prop) : Prop extends Chains P where
  bindVar : ∀ v t, P (Store.bind v t)
  fresh : ∀ level, P (liftM (Ty.fresh level) : UnifyM Ty)
  extendRow : ∀ labels row, P (liftM (Ty.extendRow labels row) : UnifyM Ty)

namespace Chains

variable {P : {α : Type} → UnifyM α → Prop} (h : Chains P)
include h

theorem forM {f : Var → UnifyM Unit} (hf : ∀ v, P (f v)) (vs : List Var) : P (vs.forM f) := by
  induction vs with
  | nil => exact h.pure ()
  | cons v vs ih => exact h.bind (hf v) fun _ => ih

/-- Binding a variable lowers others, and then links it. -/
theorem bindVar (hadjust : ∀ v level t u, P (adjust v level t u))
    (hlink : ∀ v t, P (modifyThe Store (·.link v t) : UnifyM Unit)) (v : Var) (t : Ty) :
    P (Store.bind v t) := by
  refine h.look (fun _ => by simp only [state_bare, reach_bare]) fun s => ?_
  split
  · exact h.bind (h.throw _) fun _ => h.bind (h.forM (hadjust v _ t) _) fun _ => hlink v t
  · exact h.bind (h.forM (hadjust v _ t) _) fun _ => hlink v t

end Chains

/-- What holds between the stores before and after each part holds between those before and after
the whole, whether it succeeds or fails. -/
theorem chains_of_trans {R : Store → Store → Prop} (hrefl : ∀ s, R s s)
    (htrans : ∀ {s s' s''}, R s s' → R s' s'' → R s s'') : Chains fun m => ∀ s, R s (m s).2 where
  pure := fun _ s => hrefl s
  throw := fun _ s => hrefl s
  bind := by
    intro α β m k hm hk s
    obtain ⟨r, s', h⟩ : ∃ r s', (m >>= k) s = (r, s') := ⟨_, _, rfl⟩
    have hfirst := hm s
    rw [h]
    rcases bind_cases h with ⟨e, herror, -⟩ | ⟨a, s₁, hok, hrest⟩
    · rwa [herror] at hfirst
    · rw [hok] at hfirst
      have hlast := hk a s₁
      rw [hrest] at hlast
      exact htrans hfirst hlast
  look := fun _ hk s => hk s s

/-- What every change of the store does, a unification does. -/
theorem composes_of_changes {R : Store → Store → Prop} (hrefl : ∀ s, R s s)
    (htrans : ∀ {s s' s''}, R s s' → R s' s'' → R s s'')
    (hset : ∀ s v st, R s ((s.record v).setState v st))
    (hfresh : ∀ s level, R s (Ty.fresh level s).2)
    (hextend : ∀ s labels row, R s (Ty.extendRow labels row s).2) :
    Composes fun m => ∀ s, R s (m s).2 where
  toChains := chains_of_trans hrefl htrans
  bindVar := by
    refine (chains_of_trans hrefl htrans).bindVar ?_ fun v t s => hset s v (.linked t)
    intro v level t u s
    rw [adjust_eq]
    cases s.state u with
    | generic => exact hrefl s
    | linked t => exact hrefl s
    | unbound l =>
      dsimp only
      split
      · exact hrefl s
      · split
        · exact hset s u _
        · exact hrefl s
  fresh := fun level s => hfresh s level
  extendRow := fun labels row s => hextend s labels row

namespace Composes

variable {P : {α : Type} → UnifyM α → Prop} (h : Composes P)
include h

/-- Bind a variable to a row. -/
theorem bindRow (v : Var) (labels : LabelMap Ty) (row : Ty) :
    P (do Store.bind v (← Ty.extendRow labels row) : UnifyM Unit) :=
  h.bind (h.extendRow labels row) fun t => h.bindVar v t

theorem unifyEnds (expected found : Ty) (lackA lackB : LabelMap Ty) (a b : RowEnd) :
    P (Store.unifyEnds expected found lackA lackB a b) := by
  cases a with
  | rigid =>
    cases b with
    | rigid => exact h.pure ()
    | flexible w => exact h.bindRow w lackB .rowEmpty
  | flexible v =>
    cases b with
    | rigid => exact h.bindRow v lackA .rowEmpty
    | flexible w =>
      rw [Store.unifyEnds]
      split
      · split
        · exact h.pure ()
        · exact h.throw _
      · split
        · exact h.bindVar v (.var w)
        · refine h.look (fun _ => rfl) fun s => h.bind (h.fresh _) fun rest => ?_
          exact h.bind (h.extendRow lackA rest) fun row =>
            h.bind (h.bindVar v row) fun _ => h.bindRow w lackB rest

/-- A rigid row that lacks a label ends the unification. -/
theorem rigid {m : UnifyM Unit} (hm : P m) (error : String → UnifyError) (e : RowEnd)
    (lack : LabelMap Ty) :
    P (match e, lack with
      | .rigid, (label, _) :: _ => do
        (MonadExcept.throw (error label) : UnifyM Unit)
        m
      | _, _ => m) := by
  split
  · exact h.bind (h.throw _) fun _ => hm
  · exact hm

section Unification

variable {f : Ty → Ty → UnifyM Unit} (hf : ∀ a b, P (f a b))
include hf

theorem unifyAll (as bs : List Ty) : P (Store.unifyAll f as bs) := by
  induction as generalizing bs with
  | nil => exact h.pure ()
  | cons a as ih =>
    cases bs with
    | nil => exact h.pure ()
    | cons b bs => exact h.bind (hf a b) fun _ => ih bs

theorem unifyShared (b a : LabelMap Ty) : P (Store.unifyShared f b a) := by
  induction a with
  | nil => exact h.pure ()
  | cons e rest ih =>
    obtain ⟨label, t⟩ := e
    unfold Store.unifyShared
    cases LabelMap.find? b label with
    | none => exact ih
    | some u => exact h.bind (hf t u) fun _ => ih

theorem unifyRows (expected found a b : Ty) : P (Store.unifyRows f expected found a b) := by
  refine h.look (fun _ => by simp only [flattenRow_bare]) fun s => ?_
  cases s.flattenRow a with
  | none => exact h.throw _
  | some rowA =>
    cases s.flattenRow b with
    | none => exact h.throw _
    | some rowB =>
      obtain ⟨labelsA, endA⟩ := rowA
      obtain ⟨labelsB, endB⟩ := rowB
      have hlast : P (do
          Store.unifyShared f labelsB labelsA
          Store.unifyEnds expected found (LabelMap.without labelsB labelsA)
            (LabelMap.without labelsA labelsB) endA endB) :=
        h.bind (h.unifyShared hf labelsB labelsA) fun _ =>
          h.unifyEnds expected found _ _ endA endB
      let error := fun label => UnifyError.mismatch .type expected found label
      exact h.rigid (h.rigid hlast error endB _) error endA _

theorem unifyHeads (a b : Ty) : P (Store.unifyHeads f a b) := by
  unfold Store.unifyHeads
  split
  · exact h.pure ()
  · split
    · exact h.bindVar _ _
    · exact h.bindVar _ _
    · split
      · exact h.throw _
      · split
        · exact h.throw _
        · exact h.unifyAll hf _ _
    · exact h.bind (hf _ _) fun _ => hf _ _
    · split
      · exact h.throw _
      · exact h.unifyAll hf _ _
    · exact h.unifyRows hf _ _ _ _
    · exact h.unifyRows hf _ _ _ _
    · exact h.unifyRows hf _ _ _ _
    · exact h.unifyRows hf _ _ _ _
    · exact h.throw _

end Unification

theorem unifyAt (n : Nat) (a b : Ty) : P (Store.unifyAt n a b) := by
  induction n generalizing a b with
  | zero => exact h.throw _
  | succ n ih => exact h.look (fun _ => by simp only [head_bare]) fun _ => h.unifyHeads ih _ _

/-- Every unification has the property. -/
theorem unify (a b : Ty) : P (Store.unify a b) :=
  h.look (fun _ => rfl) fun _ => h.unifyAt _ a b

end Composes

end Typecase.Store
