import Typecase.Proofs.Types.Transactions
set_option autoImplicit false

/-!
# Trying a unification

Whether changes are recorded makes no difference to a unification: it takes the same course,
comes to the same result and changes the variables in the same way.  To try a unification is
therefore to do it, and to take it back if it fails; nothing remains of it then but the
variables and nodes that it allocated.
-/

namespace Typecase

namespace Store

variable {s s' s'' : Store} {α : Type}

/-! ## Unification does not depend on the trail -/

/-- A computation that takes the same course whether changes are recorded or not. -/
def Blind (m : UnifyM α) : Prop := ∀ s, m s.bare = ((m s).1, (m s).2.bare)

theorem bare_setState_record (s : Store) (v : Var) (st : VarState) :
    (s.bare.record v).setState v st = ((s.record v).setState v st).bare := by
  unfold record
  rw [if_neg (by simp [bare])]
  split <;> rfl

theorem blind_adjust (v : Var) (level : Int) (t : Ty) (u : Var) : Blind (adjust v level t u) := by
  intro s
  rw [adjust_eq, adjust_eq, state_bare]
  cases s.state u with
  | generic => rfl
  | linked _ => rfl
  | unbound l =>
    dsimp only
    split
    · rfl
    · split
      · exact congrArg (Prod.mk _) (bare_setState_record s u _)
      · rfl

theorem blind_extendRow (labels : LabelMap Ty) (row : Ty) :
    Blind (liftM (Ty.extendRow labels row) : UnifyM Ty) := by
  intro s
  unfold Ty.extendRow
  split <;> rfl

theorem chains_blind : Chains Blind where
  pure := fun _ _ => rfl
  throw := fun _ _ => rfl
  bind := by
    intro α β m k hm hk s
    show ExceptT.bindCont k (m s.bare).1 (m s.bare).2 =
      ((ExceptT.bindCont k (m s).1 (m s).2).1, (ExceptT.bindCont k (m s).1 (m s).2).2.bare)
    rw [hm s]
    cases (m s).1 with
    | ok a => exact hk a (m s).2
    | error e => rfl
  look := by
    intro α k hlook hk s
    show k s.bare s.bare = _
    rw [hlook]
    exact hk s s

theorem composes_blind : Composes Blind where
  toChains := chains_blind
  bindVar := chains_blind.bindVar blind_adjust fun v _ s =>
    congrArg (Prod.mk _) (bare_setState_record s v _)
  fresh := fun _ _ => rfl
  extendRow := blind_extendRow

theorem blind_unify (a b : Ty) : Blind (unify a b) := composes_blind.unify a b

theorem eq_of_bare_eq (h : s.bare = s'.bare) (hspec : s.speculative = s'.speculative)
    (htrail : s.trail = s'.trail) : s = s' := by
  cases s
  cases s'
  simp only [bare, Store.mk.injEq] at h hspec htrail ⊢
  exact ⟨h.1, h.2.1, h.2.2.1, h.2.2.2.1, hspec, htrail, h.2.2.2.2.2.2⟩

/-- Inside a transaction a unification runs as it does outside. -/
theorem unify_openTransaction (a b : Ty) (s : Store) :
    (unify a b (openTransaction s).2).1 = (unify a b s).1 ∧
      (unify a b (openTransaction s).2).2.bare = (unify a b s).2.bare := by
  have hopen := blind_unify a b (openTransaction s).2
  have hplain := blind_unify a b s
  have hbare : (openTransaction s).2.bare = s.bare := rfl
  rw [hbare, hplain, Prod.mk.injEq] at hopen
  exact ⟨hopen.1.symm, hopen.2.symm⟩

/-- What a transaction keeps is what is done without it. -/
theorem commit_unify (a b : Ty) (s : Store) :
    (unify a b (openTransaction s).2).2.commit (openTransaction s).1 = (unify a b s).2 := by
  cases hspec : s.speculative with
  | true =>
    have hopen : (openTransaction s).2 = s := by
      unfold openTransaction
      rw [← hspec]
    rw [hopen]
    exact if_pos hspec
  | false =>
    obtain ⟨-, hidle, htrail⟩ := commit_outermost hspec (unify a b (openTransaction s).2).2
    have hplain := reversible_unify a b s
    refine eq_of_bare_eq ?_ (hidle.trans (hplain.speculative.trans hspec).symm)
      (htrail.trans (hplain.quiet hspec).symm)
    rw [← (unify_openTransaction a b s).2]
    unfold commit
    rw [if_neg (by simp [openTransaction, hspec])]
    rfl

/-! ## What is allocated -/

/-- The supply of variables and nodes goes on from `s` to `s'`, with a new number for each new
variable. -/
structure Supplies (s s' : Store) : Prop where
  marks : s.marks.toList <+: s'.marks.toList
  recent : s.recent <:+ s'.recent
  nextId : s'.nextId + s.size = s.nextId + s'.size
  renames : s'.renames = s.renames

theorem Supplies.refl (s : Store) : Supplies s s :=
  ⟨List.prefix_rfl, List.suffix_rfl, rfl, rfl⟩

theorem Supplies.trans (h : Supplies s s') (h' : Supplies s' s'') : Supplies s s'' where
  marks := h.marks.trans h'.marks
  recent := h.recent.trans h'.recent
  nextId := by
    have := h.nextId
    have := h'.nextId
    omega
  renames := h'.renames.trans h.renames

theorem supplies_setState (s : Store) (v : Var) (st : VarState) :
    Supplies s ((s.record v).setState v st) := by
  refine ⟨?_, ?_, ?_, ?_⟩
  · unfold record
    split <;> exact List.prefix_rfl
  · unfold record
    split <;> exact List.suffix_rfl
  · rw [size_setState, size_record]
    unfold record
    split <;> rfl
  · unfold record
    split <;> rfl

theorem supplies_fresh (s : Store) (level : Int) : Supplies s (Ty.fresh level s).2 where
  marks := List.prefix_rfl
  recent := List.suffix_cons _ _
  nextId := by
    rw [size_fresh]
    show s.nextId + 1 + s.size = _
    omega
  renames := rfl

theorem supplies_extendRow (s : Store) (labels : LabelMap Ty) (row : Ty) :
    Supplies s (Ty.extendRow labels row s).2 := by
  unfold Ty.extendRow
  split
  · exact .refl s
  · refine ⟨?_, List.suffix_rfl, rfl, rfl⟩
    show _ <+: (s.marks.push false).toList
    rw [Array.toList_push]
    exact List.prefix_append _ _

theorem supplies_unify (a b : Ty) (s : Store) : Supplies s (unify a b s).2 :=
  (composes_of_changes Supplies.refl .trans supplies_setState supplies_fresh
    supplies_extendRow).unify a b s

theorem Supplies.rollback (h : Supplies s s') (txn : Transaction) :
    Supplies s (s'.rollback txn) := by
  have hkept : ∀ (es : List (Var × Cell)) (s' : Store), (s'.restore es).marks = s'.marks ∧
      (s'.restore es).recent = s'.recent := by
    intro es
    induction es with
    | nil => exact fun _ => ⟨rfl, rfl⟩
    | cons e es ih => exact fun s' => ih (s'.setCell e.1 e.2)
  obtain ⟨hmarks, hrecent⟩ := hkept (s'.trail.take (s'.trail.length - txn.trail.length)) s'
  have hsize : (s'.rollback txn).size = s'.size := size_restore s' _
  have hnext : (s'.rollback txn).nextId = s'.nextId := nextId_restore s' _
  refine ⟨?_, ?_, ?_, ?_⟩
  · show _ <+: (s'.restore _).marks.toList
    rw [hmarks]
    exact h.marks
  · show _ <:+ (s'.restore _).recent
    rw [hrecent]
    exact h.recent
  · rw [hsize, hnext]
    exact h.nextId
  · exact (renaming_restore s' _).trans h.renames

/-- The store `s'` is `s` but for the variables and nodes allocated since. -/
structure OnlyAllocates (s s' : Store) : Prop extends Restores s s', Supplies s s'

/-- A unification that is rolled back leaves only what it allocated. -/
theorem onlyAllocates_rollback (a b : Ty) (s : Store) :
    OnlyAllocates s ((unify a b (openTransaction s).2).2.rollback (openTransaction s).1) where
  toRestores := (reversible_unify a b (openTransaction s).2).rollback
  toSupplies := by
    have hopen : Supplies s (openTransaction s).2 :=
      ⟨List.prefix_rfl, List.suffix_rfl, rfl, rfl⟩
    exact (hopen.trans (supplies_unify a b _)).rollback _

/-! ## Trying and asking -/

/-- A unification that succeeds may as well be tried. -/
theorem tryUnify_of_ok {a b : Ty} (h : (unify a b s).1 = .ok ()) :
    tryUnify a b s = unify a b s := by
  have hresult := (unify_openTransaction a b s).1.trans h
  have hcommit := commit_unify a b s
  rw [tryUnify_run]
  rcases hrun : unify a b (openTransaction s).2 with ⟨r, s₁⟩
  rw [hrun] at hresult hcommit
  subst hresult
  exact Prod.ext h.symm hcommit

/-- A unification that fails is taken back when it is tried. -/
theorem tryUnify_of_error {a b : Ty} {e : UnifyError} (h : (unify a b s).1 = .error e) :
    (tryUnify a b s).1 = .error e ∧ OnlyAllocates s (tryUnify a b s).2 := by
  have hresult := (unify_openTransaction a b s).1.trans h
  have hback := onlyAllocates_rollback a b s
  rw [tryUnify_run]
  rcases hrun : unify a b (openTransaction s).2 with ⟨r, s₁⟩
  rw [hrun] at hresult hback
  subst hresult
  exact ⟨rfl, hback⟩

/-- To ask whether two types can be unified is to unify them and to take that back. -/
theorem canUnify_run (a b : Ty) (s : Store) :
    ((canUnify a b s).1 = true ↔ (unify a b s).1 = .ok ()) ∧
      OnlyAllocates s (canUnify a b s).2 := by
  rw [canUnify_eq, (unify_openTransaction a b s).1]
  refine ⟨?_, onlyAllocates_rollback a b s⟩
  cases (unify a b s).1 <;> simp [Except.isOk, Except.toBool]

/-- From every store and for all types, trying to unify them and asking whether they can be
unified succeed exactly if unifying them does.  A try that succeeds leaves the store that the
unification leaves.  A try that fails reports the error that the unification reports, about the
same types, and, like asking, leaves the store as it was but for the variables and nodes that
were allocated. -/
theorem tryUnify_canUnify_agree (a b : Ty) (s : Store) :
    (tryUnify a b s).1 = (unify a b s).1 ∧
      ((canUnify a b s).1 = true ↔ (unify a b s).1 = .ok ()) ∧
      ((unify a b s).1 = .ok () → tryUnify a b s = unify a b s) ∧
      (∀ e, (unify a b s).1 = .error e → OnlyAllocates s (tryUnify a b s).2) ∧
      OnlyAllocates s (canUnify a b s).2 := by
  refine ⟨?_, (canUnify_run a b s).1, tryUnify_of_ok, fun e h => (tryUnify_of_error h).2,
    (canUnify_run a b s).2⟩
  cases hresult : (unify a b s).1 with
  | ok _ => rw [tryUnify_of_ok hresult, hresult]
  | error e => exact (tryUnify_of_error hresult).1

/-- A unification of `α → int` and `bool → bool` fails after it has bound `α`; a try leaves `α`
unbound. -/
theorem tryUnify_releases_argument :
    let s : Store := { cells := #[⟨0, .unbound 1⟩], nextId := 1 }
    let a : Ty := .arrow .plain (.var 0) (.const "int")
    let b : Ty := .arrow .plain (.const "bool") (.const "bool")
    (unify a b s).1 =
        .error (.mismatch .constructor (.const "int") (.const "bool") "") ∧
      (unify a b s).2.state 0 = .linked (.const "bool") ∧ OnlyAllocates s (tryUnify a b s).2 := by
  refine ⟨by decide +kernel, by decide +kernel, ?_⟩
  exact (tryUnify_canUnify_agree _ _ _).2.2.2.1
    (.mismatch .constructor (.const "int") (.const "bool") "") (by decide +kernel)

end Store

end Typecase
