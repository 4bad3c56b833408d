import Typecase.Types.Instance
import Typecase.Types.Transaction
set_option autoImplicit false

/-!
# Workbenches

A workbench holds named types and schemes over one store, and the transactions that
are open on it.

Quantifying a type also shortens the links inside its composite parts: a part that was a
bound variable is replaced by the type at the end of its links.  The shortened parts are
shared by all types on the workbench, and they stay as they are when the transaction that
bound the variable is rolled back.
-/

namespace Typecase

namespace Store

mutual

/-- Shorten the links in the composite parts of a type whose marks are given.  `short`
tells whether the type stands in such a part, and `follow` goes on behind a link. -/
def settleWith (s : Store) (marks : List Mark) (follow : Ty → Ty) : (short : Bool) → Ty → Ty
  | short, .var v =>
    if short then
      match s.head (.var v) with
      | .var w => .var w
      | t => follow t
    else .var v
  | _, .con m name args => .con m name (settleListWith s marks follow (marks.contains m) args)
  | _, .arrow m a r =>
    let short := marks.contains m
    .arrow m (settleWith s marks follow short a) (settleWith s marks follow short r)
  | _, .tuple m es => .tuple m (settleListWith s marks follow (marks.contains m) es)
  | _, .record m row => .record m (settleWith s marks follow (marks.contains m) row)
  | _, .rowExtend m labels row =>
    .rowExtend m (settleFieldsWith s marks follow labels)
      (settleWith s marks follow (marks.contains m) row)
  | _, .rowEmpty => .rowEmpty
  | _, .lost => .lost

def settleListWith (s : Store) (marks : List Mark) (follow : Ty → Ty) (short : Bool) :
    List Ty → List Ty
  | [] => []
  | t :: ts => settleWith s marks follow short t :: settleListWith s marks follow short ts

/-- Shorten the links inside labelled types.  The links of the labels themselves are
kept. -/
def settleFieldsWith (s : Store) (marks : List Mark) (follow : Ty → Ty) :
    List (String × Ty) → List (String × Ty)
  | [] => []
  | (l, t) :: ts => (l, settleWith s marks follow false t) :: settleFieldsWith s marks follow ts

end

/-- Shorten the links in the composite parts of `t` with the given marks, following at
most `n` links on every branch. -/
def settleAt (s : Store) (marks : List Mark) : Nat → Ty → Ty
  | 0 => s.settleWith marks (fun t => t) false
  | n + 1 => s.settleWith marks (settleAt s marks n) false

/-- Shorten the links in the composite parts of `t` with the given marks. -/
def settle (s : Store) (marks : List Mark) (t : Ty) : Ty := s.settleAt marks s.size t

def marksOf (s : Store) (t : Ty) : List Mark :=
  ((s.nodes t).filterMap Ty.mark?).filter fun m => m matches .node _

end Store

/-- Change the type that a variable is bound to. -/
def Cell.mapLink (f : Ty → Ty) (c : Cell) : Cell :=
  match c.state with
  | .linked t => { c with state := .linked (f t) }
  | _ => c

structure Workbench where
  store : Store := {}
  /-- The named types, in order of first definition. -/
  types : LabelMap Ty := []
  schemes : LabelMap Scheme := []
  /-- The open transactions, innermost first. -/
  transactions : List Transaction := []
  deriving DecidableEq, Repr, Inhabited

abbrev WorkM := StateM Workbench

namespace Workbench

def inStore {α : Type} (act : StoreM α) : WorkM α := fun w =>
  let (a, s) := act w.store
  (a, { w with store := s })

def define (name : String) (t : Ty) : WorkM Unit :=
  modify fun w => { w with types := LabelMap.set w.types name t }

def defineScheme (name : String) (σ : Scheme) : WorkM Unit :=
  modify fun w => { w with schemes := LabelMap.set w.schemes name σ }

/-- Replace every type on the workbench, in the store and in what transactions
remember. -/
def mapTypes (f : Ty → Ty) (w : Workbench) : Workbench :=
  let trail := List.map fun (e : Var × Cell) => (e.1, e.2.mapLink f)
  { store := { w.store with
      cells := w.store.cells.map (Cell.mapLink f)
      trail := trail w.store.trail }
    types := w.types.map fun e => (e.1, f e.2)
    schemes := w.schemes.map fun e => (e.1, { e.2 with type := f e.2.type })
    transactions := w.transactions.map fun txn => { txn with trail := trail txn.trail } }

/-- Quantify a type and give the scheme a name.  The links inside the type are shortened,
which can be told only while a transaction is open. -/
def generalize (name : String) (level : Int) (t : Ty) : WorkM Scheme := do
  let σ ← inStore (Store.generalize level t)
  defineScheme name σ
  modify fun w =>
    if w.store.speculative then w.mapTypes (w.store.settle (w.store.marksOf t)) else w
  return σ

def openTransaction : WorkM Unit := do
  let txn ← inStore Store.openTransaction
  modify fun w => { w with transactions := txn :: w.transactions }

/-- Roll the innermost transaction back. -/
def rollback (w : Workbench) : Workbench :=
  match w.transactions with
  | txn :: outer => { w with store := w.store.rollback txn, transactions := outer }
  | [] => w

def commit (w : Workbench) : Workbench :=
  match w.transactions with
  | txn :: outer => { w with store := w.store.commit txn, transactions := outer }
  | [] => w

/-- Forget everything but the names, the variables, the marks and the next number. -/
def reset (w : Workbench) : Workbench := { w with store := w.store.reset, transactions := [] }

end Workbench

end Typecase
