import Typecase.Types.Unify
set_option autoImplicit false

/-!
# Transactions

While a transaction is open, the state that a variable had before a change is put on
the trail.  Rolling the transaction back restores these states, latest first.
Committing it keeps the changes; inside another transaction the trail is kept as well,
so that the outer transaction can still be rolled back.
-/

namespace Typecase

/-- What a transaction remembers of the time when it began. -/
structure Transaction where
  /-- Whether it began inside another transaction. -/
  speculative : Bool
  trail : List (Var × Cell)
  deriving DecidableEq, Repr, Inhabited

namespace Store

/-- Put back the states of the given entries in order. -/
def restore (s : Store) (entries : List (Var × Cell)) : Store :=
  entries.foldl (fun s e => s.setCell e.1 e.2) s

/-- Begin to record changes. -/
def openTransaction : StoreM Transaction := fun s =>
  (⟨s.speculative, s.trail⟩, { s with speculative := true })

/-- Undo all changes since `txn` began. -/
def rollback (txn : Transaction) (s : Store) : Store :=
  { s.restore (s.trail.take (s.trail.length - txn.trail.length)) with
    speculative := txn.speculative
    trail := txn.trail }

/-- Keep all changes since `txn` began. -/
def commit (txn : Transaction) (s : Store) : Store :=
  if txn.speculative then s else { s with speculative := false, trail := txn.trail }

/-- Unify two types, or change nothing but the supply of variables if that fails. -/
def tryUnify (a b : Ty) : UnifyM Unit := fun s =>
  let (txn, s) := openTransaction s
  match unify a b s with
  | (.ok (), s) => (.ok (), s.commit txn)
  | (.error e, s) => (.error e, s.rollback txn)

/-- Whether two types unify.  Nothing is changed. -/
def canUnify (a b : Ty) : StoreM Bool := fun s =>
  let (txn, s) := openTransaction s
  match unify a b s with
  | (.ok (), s) => (true, s.rollback txn)
  | (.error _, s) => (false, s.rollback txn)

end Store

end Typecase
