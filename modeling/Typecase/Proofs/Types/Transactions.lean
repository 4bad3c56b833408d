import Typecase.Proofs.Types.UnifyParts
import Typecase.Types.Workbench
set_option autoImplicit false

/-!
# Nested transactions

On a workbench, transactions are opened, committed and rolled back in any nesting, with
unifications in between that succeed or fail.  Whatever is done while a transaction is open,
rolling it back brings every variable that was there when it began back to what it was then.
Committing the outermost transaction changes no variable.

This holds of all stores and types whatsoever: a change is always recorded before it is made,
so no computation that works on the store can leave a change that the trail does not undo.
-/

namespace Typecase

namespace Store

variable {s s' s'' : Store} {α β : Type}

/-! ## Changes that can be undone -/

/-- While changes are recorded, what was added to the trail since `s` brings the variables of `s`
back.  Otherwise nothing was added. -/
structure Reverts (s s' : Store) : Prop where
  size_le : s.size ≤ s'.size
  nextId_le : s.nextId ≤ s'.nextId
  speculative : s'.speculative = s.speculative
  idle : s.renames = [] → s'.renames = []
  quiet : s.speculative = false → s'.trail = s.trail
  trail : s.speculative = true → ∃ es, s'.trail = es ++ s.trail ∧
    ∀ v < s.size, (s'.restore es).cell v = s.cell v

/-- Nothing is done to the variables of `s` and to the trail. -/
theorem reverts_of_kept (hsize : s.size ≤ s'.size) (hnext : s.nextId ≤ s'.nextId)
    (hspec : s'.speculative = s.speculative) (hidle : s.renames = [] → s'.renames = [])
    (htrail : s'.trail = s.trail) (hcell : ∀ v < s.size, s'.cell v = s.cell v) : Reverts s s' where
  size_le := hsize
  nextId_le := hnext
  speculative := hspec
  idle := hidle
  quiet := fun _ => htrail
  trail := fun _ => ⟨[], htrail, hcell⟩

theorem Reverts.refl (s : Store) : Reverts s s :=
  reverts_of_kept (Nat.le_refl _) (Nat.le_refl _) rfl (fun h => h) rfl fun _ _ => rfl

theorem Reverts.trans (h : Reverts s s') (h' : Reverts s' s'') : Reverts s s'' where
  size_le := Nat.le_trans h.size_le h'.size_le
  nextId_le := Nat.le_trans h.nextId_le h'.nextId_le
  speculative := h'.speculative.trans h.speculative
  idle := fun hs => h'.idle (h.idle hs)
  quiet := fun hspec => (h'.quiet (h.speculative.trans hspec)).trans (h.quiet hspec)
  trail := by
    intro hspec
    obtain ⟨es, htrail, hback⟩ := h.trail hspec
    obtain ⟨es', htrail', hback'⟩ := h'.trail (h.speculative.trans hspec)
    refine ⟨es' ++ es, by rw [htrail', htrail, List.append_assoc], ?_⟩
    intro v hv
    have hv' := Nat.lt_of_lt_of_le hv h.size_le
    have hv'' := Nat.lt_of_lt_of_le hv' h'.size_le
    -- the later entries bring `v` back to `s'`, the earlier ones from there to `s`
    rw [restore_append, ← hback v hv]
    refine cell_restore_congr es hv' ?_ (hback' v hv')
    rw [size_restore]
    exact hv''

/-- A variable may be changed once it is recorded. -/
theorem reverts_setState (s : Store) (v : Var) (st : VarState) :
    Reverts s ((s.record v).setState v st) := by
  refine ⟨by rw [size_setState, size_record], ?_, ?_, ?_, ?_, ?_⟩
  · unfold record
    split <;> exact Nat.le_refl _
  · unfold record
    split <;> rfl
  · exact (lowered_record s v).idle
  · intro hspec
    have hrecord : s.record v = s := if_neg (by simp [hspec])
    rw [hrecord]
    rfl
  · intro hspec
    have hrecord : s.record v = { s with trail := (v, s.cell v) :: s.trail } := if_pos hspec
    exact ⟨[(v, s.cell v)], by rw [hrecord]; rfl, fun u _ => cell_restore_record hspec v u st⟩

theorem reverts_fresh (s : Store) (level : Int) : Reverts s (Ty.fresh level s).2 :=
  reverts_of_kept (by rw [size_fresh]; exact Nat.le_succ _) (Nat.le_succ _) rfl (fun h => h) rfl
    fun _ hv => cell_fresh s level (Nat.ne_of_lt hv)

theorem reverts_extendRow (s : Store) (labels : LabelMap Ty) (row : Ty) :
    Reverts s (Ty.extendRow labels row s).2 := by
  unfold Ty.extendRow
  split
  · exact .refl s
  · exact reverts_of_kept (Nat.le_refl _) (Nat.le_refl _) rfl (fun h => h) rfl fun _ _ => rfl

/-! ## Unification can be undone -/

/-- A computation all of whose changes can be undone, whether it succeeds or fails. -/
def Reversible (m : UnifyM α) : Prop := ∀ s, Reverts s (m s).2

theorem composes_reversible : Composes Reversible :=
  composes_of_changes .refl .trans reverts_setState reverts_fresh reverts_extendRow

theorem reversible_unify (a b : Ty) : Reversible (unify a b) := composes_reversible.unify a b

/-! ## One transaction -/

/-- Rolling back brings everything back that was there when the transaction began. -/
structure Restores (s s' : Store) : Prop where
  size_le : s.size ≤ s'.size
  cell : ∀ v < s.size, s'.cell v = s.cell v
  speculative : s'.speculative = s.speculative
  trail : s'.trail = s.trail
  idle : s.renames = [] → s'.renames = []

theorem Restores.reverts (h : Restores s s') (hnext : s.nextId ≤ s'.nextId) : Reverts s s' :=
  reverts_of_kept h.size_le hnext h.speculative h.idle h.trail h.cell

theorem Reverts.rollback (h : Reverts (openTransaction s).2 s') :
    Restores s (s'.rollback (openTransaction s).1) := by
  obtain ⟨es, htrail, hback⟩ := h.trail rfl
  refine ⟨?_, fun v hv => (cell_rollback htrail v).trans (hback v hv), rfl, rfl, ?_⟩
  · show s.size ≤ (s'.restore _).size
    rw [size_restore]
    exact h.size_le
  · show s.renames = [] → (s'.restore _).renames = []
    rw [renaming_restore]
    exact h.idle

/-- A transaction that is rolled back leaves no traces but in the supply of variables. -/
theorem Reverts.rolled (h : Reverts (openTransaction s).2 s') :
    Reverts s (s'.rollback (openTransaction s).1) := by
  refine h.rollback.reverts ?_
  show s.nextId ≤ (s'.restore _).nextId
  rw [nextId_restore]
  exact h.nextId_le

/-- The changes of a transaction that is committed inside another one stay on the trail. -/
theorem Reverts.commit (h : Reverts (openTransaction s).2 s') :
    Reverts s (s'.commit (openTransaction s).1) := by
  unfold Store.commit
  split
  · rename_i hspec
    have hspec : s.speculative = true := hspec
    have hopen : (openTransaction s).2 = s := by
      unfold openTransaction
      rw [← hspec]
    rwa [hopen] at h
  · rename_i hspec
    have hspec : s.speculative = false := Bool.eq_false_iff.mpr hspec
    exact ⟨h.size_le, h.nextId_le, hspec.symm, h.idle, fun _ => rfl,
      fun hspec' => by simp [hspec] at hspec'⟩

/-- Committing the outermost transaction. -/
theorem commit_outermost (hspec : s.speculative = false) (s' : Store) :
    (s'.commit (openTransaction s).1).cells = s'.cells ∧
      (s'.commit (openTransaction s).1).speculative = false ∧
      (s'.commit (openTransaction s).1).trail = s.trail := by
  have hcommit : s'.commit (openTransaction s).1 =
      { s' with speculative := false, trail := s.trail } :=
    if_neg (by simp [openTransaction, hspec])
  rw [hcommit]
  exact ⟨rfl, rfl, rfl⟩

theorem reverts_tryUnify (a b : Ty) (s : Store) : Reverts s (tryUnify a b s).2 := by
  have hrun := reversible_unify a b (openTransaction s).2
  rcases tryUnify_store a b s with h | h <;> rw [h]
  · exact hrun.commit
  · exact hrun.rolled

theorem reverts_canUnify (a b : Ty) (s : Store) : Reverts s (canUnify a b s).2 := by
  rw [canUnify_eq]
  exact (reversible_unify a b (openTransaction s).2).rolled

end Store

/-! ## Sequences of actions -/

namespace Workbench

/-- What is done on a workbench with transactions. -/
inductive Action where
  /-- Open a transaction. -/
  | begin
  | unify (a b : Ty)
  | tryUnify (a b : Ty)
  | canUnify (a b : Ty)
  /-- Allocate a variable. -/
  | newVar (level : Int)
  | commit
  /-- Roll the innermost transaction back. -/
  | rollback
  deriving DecidableEq, Repr

/-- The workbench after an action. -/
def perform (w : Workbench) : Action → Workbench
  | .begin => (openTransaction w).2
  | .unify a b => (inStore (Store.unify a b).run w).2
  | .tryUnify a b => (inStore (Store.tryUnify a b).run w).2
  | .canUnify a b => (inStore (Store.canUnify a b) w).2
  | .newVar level => (inStore (Store.fresh level) w).2
  | .commit => w.commit
  | .rollback => w.rollback

/-- The workbench after several actions. -/
def run (w : Workbench) (acts : List Action) : Workbench := acts.foldl perform w

theorem run_append (w : Workbench) (acts acts' : List Action) :
    w.run (acts ++ acts') = (w.run acts).run acts' := List.foldl_append

/-- Whether the actions close, innermost first, the transactions that they open and `depth`
others. -/
def closes : (depth : Nat) → List Action → Bool
  | depth, [] => depth == 0
  | depth, .begin :: acts => closes (depth + 1) acts
  | depth + 1, .commit :: acts | depth + 1, .rollback :: acts => closes depth acts
  | 0, .commit :: _ | 0, .rollback :: _ => false
  | depth, .unify .. :: acts | depth, .tryUnify .. :: acts | depth, .canUnify .. :: acts
  | depth, .newVar .. :: acts => closes depth acts

/-- Well-nested actions: they close exactly the transactions that they open. -/
def wellNested (acts : List Action) : Bool := closes 0 acts

variable {w w' : Workbench} {depth : Nat}

/-- The workbench `w'` has `depth` more open transactions than `w`, and can be brought back to
where each of them began. -/
inductive Opened (w : Workbench) : Nat → Workbench → Prop
  | flat {w' : Workbench} : w.store.Reverts w'.store → w'.transactions = w.transactions →
      Opened w 0 w'
  | inside {depth : Nat} {w₁ w' : Workbench} : Opened w depth w₁ →
      (Store.openTransaction w₁.store).2.Reverts w'.store →
      w'.transactions = (Store.openTransaction w₁.store).1 :: w₁.transactions →
      Opened w (depth + 1) w'

/-- Work inside the innermost transaction. -/
theorem Opened.work (h : Opened w depth w') {s : Store} (hs : w'.store.Reverts s)
    (w'' : Workbench) : Opened w depth { w'' with store := s, transactions := w'.transactions } := by
  cases h with
  | flat hreverts htxns => exact .flat (hreverts.trans hs) htxns
  | inside hopened hreverts htxns => exact .inside hopened (hreverts.trans hs) htxns

theorem Opened.begin (h : Opened w depth w') : Opened w (depth + 1) (w'.perform .begin) :=
  .inside h (.refl _) rfl

theorem Opened.commit (h : Opened w (depth + 1) w') : Opened w depth (w'.perform .commit) := by
  cases h with
  | @inside _ w₁ _ hopened hreverts htxns =>
    have hcommit : w'.perform .commit = { w' with
        store := w'.store.commit (Store.openTransaction w₁.store).1
        transactions := w₁.transactions } := by
      unfold perform Workbench.commit
      rw [htxns]
    rw [hcommit]
    exact hopened.work hreverts.commit w'

theorem Opened.rollback (h : Opened w (depth + 1) w') : Opened w depth (w'.perform .rollback) := by
  cases h with
  | @inside _ w₁ _ hopened hreverts htxns =>
    have hrollback : w'.perform .rollback = { w' with
        store := w'.store.rollback (Store.openTransaction w₁.store).1
        transactions := w₁.transactions } := by
      unfold perform Workbench.rollback
      rw [htxns]
    rw [hrollback]
    exact hopened.work hreverts.rolled w'

/-- Actions that close `depth` transactions lead back to where the outermost of them began. -/
theorem Opened.run (h : Opened w depth w') {acts : List Action} (hacts : closes depth acts) :
    Opened w 0 (w'.run acts) := by
  induction acts generalizing depth w' with
  | nil =>
    obtain rfl : depth = 0 := by simpa [closes] using hacts
    exact h
  | cons act acts ih =>
    rw [run, List.foldl_cons]
    cases act with
    | begin => exact ih h.begin hacts
    | unify a b => exact ih (h.work (Store.reversible_unify a b w'.store) w') hacts
    | tryUnify a b => exact ih (h.work (Store.reverts_tryUnify a b w'.store) w') hacts
    | canUnify a b => exact ih (h.work (Store.reverts_canUnify a b w'.store) w') hacts
    | newVar level => exact ih (h.work (Store.reverts_fresh w'.store level) w') hacts
    | commit =>
      cases depth with
      | zero => cases hacts
      | succ depth => exact ih h.commit hacts
    | rollback =>
      cases depth with
      | zero => cases hacts
      | succ depth => exact ih h.rollback hacts

/-- Well-nested actions leave the transactions around them alone. -/
theorem run_wellNested (w : Workbench) {acts : List Action} (hacts : wellNested acts) :
    w.store.Reverts (w.run acts).store ∧ (w.run acts).transactions = w.transactions := by
  have hopened : Opened w 0 w := .flat (.refl _) rfl
  cases hopened.run hacts with
  | flat hreverts htxns => exact ⟨hreverts, htxns⟩

/-- Whatever is done in between, rolling a transaction back restores the variables that were
there when it began, and the trail; committing the outermost transaction keeps all variables and
restores the trail. -/
theorem run_transaction (w : Workbench) {body : List Action} (hbody : wellNested body) :
    (Store.Restores w.store (w.run (.begin :: body ++ [.rollback])).store ∧
      (w.run (.begin :: body ++ [.rollback])).transactions = w.transactions) ∧
    (w.store.speculative = false →
      (w.run (.begin :: body ++ [.commit])).store.cells = (w.run (.begin :: body)).store.cells ∧
      (w.run (.begin :: body ++ [.commit])).store.speculative = false ∧
      (w.run (.begin :: body ++ [.commit])).store.trail = w.store.trail ∧
      (w.run (.begin :: body ++ [.commit])).transactions = w.transactions) := by
  have hbegin : ∀ act, w.run (.begin :: body ++ [act]) = (w.run (.begin :: body)).perform act :=
    fun act => run_append w (.begin :: body) [act]
  obtain ⟨hreverts, htxns⟩ := run_wellNested (w.perform .begin) hbody
  have hreverts : (Store.openTransaction w.store).2.Reverts (w.run (.begin :: body)).store :=
    hreverts
  have htxns : (w.run (.begin :: body)).transactions =
      (Store.openTransaction w.store).1 :: w.transactions := htxns
  rw [hbegin, hbegin, perform, perform, rollback, commit, htxns]
  refine ⟨⟨hreverts.rollback, rfl⟩, ?_⟩
  intro hspec
  obtain ⟨hcells, hspec', htrail⟩ := Store.commit_outermost hspec (w.run (.begin :: body)).store
  exact ⟨hcells, hspec', htrail, rfl⟩

/-- Two variables, at levels 2 and 1. -/
def twoVars : Workbench := ({ } : Workbench).run [.newVar 2, .newVar 1]

/-- The first variable is lowered and then bound, each time in a transaction of its own; the
last unification fails. -/
def nestedBody : List Action := [
  .begin, .tryUnify (.var 1) (.arrow .plain (.var 0) Ty.int), .commit,
  .begin, .unify (.var 0) Ty.string, .commit,
  .begin, .newVar 3, .unify (.var 0) (.var 2), .rollback,
  .unify (.var 0) Ty.bool]

theorem run_transaction_nestedBody : wellNested nestedBody ∧
    ((Store.Restores twoVars.store (twoVars.run (.begin :: nestedBody ++ [.rollback])).store ∧
      (twoVars.run (.begin :: nestedBody ++ [.rollback])).transactions = twoVars.transactions) ∧
    (twoVars.store.speculative = false →
      (twoVars.run (.begin :: nestedBody ++ [.commit])).store.cells =
        (twoVars.run (.begin :: nestedBody)).store.cells ∧
      (twoVars.run (.begin :: nestedBody ++ [.commit])).store.speculative = false ∧
      (twoVars.run (.begin :: nestedBody ++ [.commit])).store.trail = twoVars.store.trail ∧
      (twoVars.run (.begin :: nestedBody ++ [.commit])).transactions = twoVars.transactions)) :=
  ⟨by decide, run_transaction twoVars (by decide)⟩

-- inside the transaction the first variable is bound, afterwards it is unbound again
example : (twoVars.run (.begin :: nestedBody)).store.state 0 = .linked Ty.string ∧
    (twoVars.run (.begin :: nestedBody ++ [.rollback])).store.state 0 = .unbound 2 := by
  decide +kernel

end Workbench

end Typecase
