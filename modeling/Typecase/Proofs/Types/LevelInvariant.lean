import Typecase.Proofs.Types.Quantify
set_option autoImplicit false

/-!
# Types that are held back

A type that is in use elsewhere must not be quantified.  If all the unbound variables that are met
from it are at level `n` or lower, then they stay so whatever is done to the store, and
quantifying at level `n` passes them by.
-/

namespace Typecase

namespace Store

variable {s s' s'' : Store} {x t : Ty} {u v w : Var} {n l : Int}

/-! ## Instances only allocate -/

theorem instantiateFrom_grows (level : Int) (given : Renaming) (t : Ty) (s : Store) :
    Grows s (instantiateFrom level given t s).2 := by
  obtain ⟨known, hsupplied, -⟩ := instantiateFrom_copyAt level given t s
  exact hsupplied.grows

theorem instantiate_grows (level : Int) (σ : Scheme) (s : Store) :
    Grows s (instantiate level σ s).2 := by
  unfold instantiate
  split
  · exact (Supplied.refl level [] s).grows
  · exact instantiateFrom_grows level [] σ.type s

/-! ## Operations -/

/-- What is done to a store between two generalizations. -/
inductive Operation where
  /-- Allocate a variable. -/
  | newVar (level : Int)
  | unify (a b : Ty)
  | tryUnify (a b : Ty)
  | canUnify (a b : Ty)
  | instantiate (level : Int) (σ : Scheme)
  | instantiateType (level : Int) (t : Ty)
  | restrict (level : Int) (t : Ty)
  | compress
  deriving DecidableEq, Repr

def perform (s : Store) : Operation → Store
  | .newVar level => (fresh level s).2
  | .unify a b => (Store.unify a b s).2
  | .tryUnify a b => (Store.tryUnify a b s).2
  | .canUnify a b => (Store.canUnify a b s).2
  | .instantiate level σ => (Store.instantiate level σ s).2
  | .instantiateType level t => (Store.instantiateType level t s).2
  | .restrict level t => s.restrict level t
  | .compress => s.compress

/-- The store after several operations. -/
def performAll (s : Store) (ops : List Operation) : Store := ops.foldl perform s

/-- An operation is about types over the store.  Variables are lowered to a level that is not below
all levels: such a number is converted to a 32-bit integer and may come out above their own. -/
def Allows (s : Store) : Operation → Prop
  | .unify a b | .tryUnify a b | .canUnify a b => s.Bounded a ∧ s.Bounded b
  | .restrict level t => Level.linked ≤ level ∧ s.Bounded t
  | .instantiate _ σ => s.Bounded σ.type
  | .instantiateType _ t => s.Bounded t
  | .newVar _ | .compress => True

/-- Each operation is about types over the store that it meets. -/
def AllowsAll : Store → List Operation → Prop
  | _, [] => True
  | s, op :: ops => s.Allows op ∧ AllowsAll (s.perform op) ops

/-- No operation raises what is met from the variables of a store. -/
theorem perform_moves (hs : s.Orderly) {op : Operation} (hop : s.Allows op) :
    Moves s (s.perform op) := by
  cases op with
  | newVar level => exact fresh_moves hs level
  | unify a b => exact (unify_traced hs hop.1 hop.2).toMoves
  | tryUnify a b => exact tryUnify_moves hs hop.1 hop.2
  | canUnify a b => exact canUnify_moves hs hop.1 hop.2
  | instantiate level σ => exact (instantiate_grows level σ s).moves hs
  | instantiateType level t => exact (instantiateFrom_grows level [] t s).moves hs
  | restrict level t => exact (restrict_lowered hop.1 hop.2).1.moves hs
  | compress => exact compress_moves hs

theorem performAll_moves {ops : List Operation} (hs : s.Orderly) (hops : s.AllowsAll ops) :
    Moves s (s.performAll ops) := by
  induction ops generalizing s with
  | nil => exact .refl hs
  | cons op ops ih =>
    have hfirst := perform_moves hs hops.1
    exact hfirst.trans (ih hfirst.orderly hops.2)

/-! ## Quantifying beside a type -/

theorem Within.level_le (h : s.Within n x) (hv : s.Reach x v) (hl : s.state v = .unbound l) :
    l ≤ n := by
  obtain ⟨u, hu, hreach⟩ := hv.source
  exact (h u hu).2 v l hreach hl

/-- Types that lie within level `n` do so after any operations, which may fail half-way, and
quantifying whatever type at level `n` then changes no variable that is met from them. -/
theorem held_back_from_generalize {E : Set Ty} {ops : List Operation} (hs : s.Orderly)
    (hE : ∀ x ∈ E, s.Within n x) (hops : s.AllowsAll ops) :
    (∀ x ∈ E, (s.performAll ops).Within n x) ∧
      ∀ t, ∀ x ∈ E, ∀ v, (s.performAll ops).Reach x v →
        (generalize n t (s.performAll ops)).2.state v = (s.performAll ops).state v := by
  have hwithin : ∀ x ∈ E, (s.performAll ops).Within n x :=
    fun x hx => (hE x hx).move (performAll_moves hs hops)
  refine ⟨hwithin, ?_⟩
  intro t x hx v hv
  exact generalize_state t fun l hl => (hwithin x hx).level_le hv hl

theorem orderly_empty : ({} : Store).Orderly where
  closed := fun _ _ ht _ hu => by
    rw [state_of_size_le (Nat.zero_le _)] at ht
    cases ht
    cases hu
  leveled := fun _ _ hl => by
    rw [state_of_size_le (Nat.zero_le _)] at hl
    cases hl

/-- A variable at level 5 becomes part of a type at level 1, and then two unifications fail. -/
def entangling : List Operation :=
  [.newVar 5, .unify (.var 0) (.con .plain "list" [.var 1]), .tryUnify (.var 1) (.var 0),
    .canUnify (.var 0) (.con .plain "int" []), .instantiateType 7 (.var 0), .restrict 3 (.var 1),
    .compress]

/-- The variable that has become part of the type is not quantified at level 1. -/
theorem held_back_from_generalize_entangling :
    (performAll (fresh 1 {}).2 entangling).state 1 = .unbound 1 ∧
      (generalize 1 (.var 1) (performAll (fresh 1 {}).2 entangling)).2.state 1 = .unbound 1 := by
  have hs : (fresh 1 {}).2.Orderly := (fresh_moves orderly_empty 1).orderly
  have hwithin : ∀ x ∈ ({.var 0} : Set Ty), (fresh 1 {}).2.Within 1 x := by
    rintro x rfl
    exact within_var.mpr (withinVar_fresh (by decide) (by decide) {})
  have hops : AllowsAll (fresh 1 {}).2 entangling := by
    simp only [entangling, AllowsAll, Allows, Bounded]
    decide
  have hstate : (performAll (fresh 1 {}).2 entangling).state 1 = .unbound 1 := by decide
  have hlink : (performAll (fresh 1 {}).2 entangling).state 0 =
      .linked (.con .plain "list" [.var 1]) := by decide
  have hreach : (performAll (fresh 1 {}).2 entangling).Reach (.var 0) 1 :=
    .step (List.mem_singleton.mpr rfl) hlink (.here (by decide))
  refine ⟨hstate, ?_⟩
  rw [(held_back_from_generalize hs hwithin hops).2 (.var 1) (.var 0) rfl 1 hreach]
  exact hstate

/-- A variable at level 1 is lowered to a number below all levels.  This raises it, and it is
quantified at level 1. -/
theorem restrict_below_levels_raises :
    (fresh 1 {}).2.Orderly ∧ (fresh 1 {}).2.Within 1 (.var 0) ∧
      (perform (fresh 1 {}).2 (.restrict (-2147483653) (.var 0))).state 0 =
        .unbound 2147483643 ∧
      (generalize 1 (.var 0)
        (perform (fresh 1 {}).2 (.restrict (-2147483653) (.var 0)))).2.state 0 = .generic :=
  ⟨(fresh_moves orderly_empty 1).orderly,
    within_var.mpr (withinVar_fresh (by decide) (by decide) {}), by decide, by decide⟩

end Store

end Typecase
