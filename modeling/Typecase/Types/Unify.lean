import Typecase.Types.Scheme
set_option autoImplicit false

/-!
# Unification

Unification makes two types equal by binding unbound variables.  A variable is bound
only to a type in which it does not occur, and the variables of that type are lowered
to its level.  Quantified variables take no part in unification.

Two records are unified by their rows.  A rigid row never gains labels.  A flexible
row is bound to the labels that it lacks; when both rows are flexible they go on with
a common fresh variable.

Unification keeps no promise about the variables it bound before it failed.  See
`Typecase.Types.Transaction` for unification that can be undone.
-/

namespace Typecase

/-- How two types fail to be equal. -/
inductive Mismatch where
  /-- Types of different form, or records with different fields. -/
  | type
  | constructor
  /-- Different numbers of arguments or elements. -/
  | arity
  /-- A variable inside the type it should be bound to. -/
  | infinite
  deriving DecidableEq, Repr, Inhabited

/-- Why a unification failed. -/
inductive UnifyError where
  /-- The innermost types that cannot be made equal.  The label is that of a missing
  record field and is empty otherwise. -/
  | mismatch (kind : Mismatch) (expected found : Ty) (label : String)
  /-- A quantified variable takes part. -/
  | generic
  /-- A record type over something that is no row. -/
  | notRow
  /-- The types are not finite. -/
  | unbounded
  deriving DecidableEq, Repr, Inhabited

/-- The wording of a failed unification. -/
def UnifyError.message (s : Store) : UnifyError → String
  | .mismatch kind expected found label =>
    let between (expected found : String) : String :=
      match kind with
      | .infinite => "Infinite type: " ++ expected ++ " occurs in " ++ found
      | _ =>
        (if label ≠ "" then "Record field " ++ label ++ " is missing"
        else match kind with
          | .constructor => "Type constructor mismatch"
          | .arity => "Arity mismatch"
          | _ => "Type mismatch") ++
          ": expected " ++ expected ++ ", found " ++ found
    match s.showTypes [expected, found] with
    | [expected, found] => between expected found
    | _ => between "" ""
  | .generic => "Generic type-variable was not instantiated before unification"
  | .notRow => "Not a row type"
  | .unbounded => "Unbounded type"

/-- Unifications change the store also when they fail. -/
abbrev UnifyM := ExceptT UnifyError StoreM

namespace Store

/-- Prepare `u` for standing in a type that `v` is bound to at `level`. -/
def adjust (v : Var) (level : Int) (t : Ty) (u : Var) : UnifyM Unit := do
  let s ← getThe Store
  match s.state u with
  | .generic => throw .generic
  | .linked _ => return
  | .unbound l =>
    if u = v then throw (.mismatch .infinite (.var v) t "")
    else if l > level then set (s.lower u level)

/-- Bind `v` to `t`, after a check that `v` does not occur in `t`. -/
def bind (v : Var) (t : Ty) : UnifyM Unit := do
  let s ← getThe Store
  if (s.state v).isGeneric then throw .generic
  (s.reach t).forM (adjust v (s.state v).level t)
  modifyThe Store (·.link v t)

/-- Unify types pairwise. -/
def unifyAll (unify : Ty → Ty → UnifyM Unit) : List Ty → List Ty → UnifyM Unit
  | a :: as, b :: bs => do
    unify a b
    unifyAll unify as bs
  | _, _ => return

/-- Unify the labels that two rows share, in the order of the first row. -/
def unifyShared (unify : Ty → Ty → UnifyM Unit) (b : LabelMap Ty) : LabelMap Ty → UnifyM Unit
  | [] => return
  | (label, t) :: rest => do
    if let some u := LabelMap.find? b label then unify t u
    unifyShared unify b rest

/-- Make the ends of two rows meet, where `lackA` are the labels that only the second
row has and `lackB` those that only the first one has. -/
def unifyEnds (expected found : Ty) (lackA lackB : LabelMap Ty) : RowEnd → RowEnd → UnifyM Unit
  | .rigid, .rigid => return
  | .flexible a, .rigid => do bind a (← Ty.extendRow lackA .rowEmpty)
  | .rigid, .flexible b => do bind b (← Ty.extendRow lackB .rowEmpty)
  | .flexible a, .flexible b => do
    if a = b then
      if lackA.isEmpty && lackB.isEmpty then return
      else throw (.mismatch .infinite expected found "")
    else if lackA.isEmpty && lackB.isEmpty then bind a (.var b)
    else
      let s ← getThe Store
      let rest ← Ty.fresh (min (s.state a).level (s.state b).level)
      bind a (← Ty.extendRow lackA rest)
      bind b (← Ty.extendRow lackB rest)

/-- Unify two rows. -/
def unifyRows (unify : Ty → Ty → UnifyM Unit) (expected found a b : Ty) : UnifyM Unit := do
  let s ← getThe Store
  let some (labelsA, endA) := s.flattenRow a | throw .notRow
  let some (labelsB, endB) := s.flattenRow b | throw .notRow
  let lackA := LabelMap.without labelsB labelsA
  let lackB := LabelMap.without labelsA labelsB
  match endA, lackA with
  | .rigid, (label, _) :: _ => throw (.mismatch .type expected found label)
  | _, _ => pure ()
  match endB, lackB with
  | .rigid, (label, _) :: _ => throw (.mismatch .type expected found label)
  | _, _ => pure ()
  unifyShared unify labelsB labelsA
  unifyEnds expected found lackA lackB endA endB

/-- One step of unification, on types that are no links. -/
def unifyHeads (unify : Ty → Ty → UnifyM Unit) (a b : Ty) : UnifyM Unit :=
  if a = b then return
  else match a, b with
    | .var v, t => bind v t
    | t, .var v => bind v t
    | .con _ n as, .con _ m bs =>
      if n ≠ m then throw (.mismatch .constructor a b "")
      else if as.length ≠ bs.length then throw (.mismatch .arity a b "")
      else unifyAll unify as bs
    | .arrow _ x y, .arrow _ x' y' => do
      unify x x'
      unify y y'
    | .tuple _ as, .tuple _ bs =>
      if as.length ≠ bs.length then throw (.mismatch .arity a b "")
      else unifyAll unify as bs
    | .record _ row, .record _ row' => unifyRows unify a b row row'
    | .rowExtend .., .rowExtend .. => unifyRows unify a b a b
    | .rowExtend .., .rowEmpty => unifyRows unify a b a b
    | .rowEmpty, .rowExtend .. => unifyRows unify a b a b
    | _, _ => throw (.mismatch .type a b "")

/-- Unify two types down to depth `n`. -/
def unifyAt : Nat → Ty → Ty → UnifyM Unit
  | 0, _, _ => throw .unbounded
  | n + 1, a, b => do
    let s ← getThe Store
    unifyHeads (unifyAt n) (s.head a) (s.head b)

/-- The greatest depth of a type behind a link. -/
def linkDepth (s : Store) : Nat :=
  s.cells.foldl (fun d c => match c.state with
    | .linked t => max d t.depth
    | _ => d) 0

/-- A bound on the depth of `a` and `b` after unification.  A branch of a finite
resolved type passes through every variable at most once, each time along a branch of
the type that the variable is bound to, and unification at most doubles the number of
variables. -/
def unifyDepth (s : Store) (a b : Ty) : Nat :=
  (2 * s.size + 2) * (max s.linkDepth (max a.depth b.depth) + 2)

/-- Make the expected type `a` and the found type `b` equal. -/
def unify (a b : Ty) : UnifyM Unit := do
  let s ← getThe Store
  unifyAt (s.unifyDepth a b) a b

end Store

end Typecase
