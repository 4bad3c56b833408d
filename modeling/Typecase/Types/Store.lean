import Typecase.Types.Basic
set_option autoImplicit false

/-!
# The store of type variables

A variable is unbound at some level, quantified, or bound to a type.  The level of
an unbound variable is the depth of the binding that may quantify it.

The store keeps every variable ever allocated.  It also keeps the marks of shared
nodes (`Typecase.Types.Basic`), the variables allocated since links were last
compressed, the trail: the earlier states of variables that were changed during
a speculative unification (`Typecase.Types.Transaction`), and the renaming: what stands for
quantified variables in an instance under construction (`Typecase.Types.Instance`).

The link of a bound variable may lead to further bound variables.  A walk along
links that does not run in a circle meets every variable at most once, so the number
of variables bounds its length; all walks below are cut off at that bound.
-/

namespace Typecase

namespace Level

/-- The level that stands for a quantified variable. -/
def generic : Int := 2147483647

/-- The level that stands for a bound variable. -/
def linked : Int := -2147483648

/-- Levels and variable numbers are 32-bit integers. -/
def ofInt (n : Int) : Int := n.bmod 4294967296

end Level

/-- What the store knows about a variable. -/
inductive VarState where
  /-- Not yet determined. -/
  | unbound (level : Int)
  /-- Quantified by a type scheme. -/
  | generic
  | linked (target : Ty)
  deriving DecidableEq, Repr, Inhabited

namespace VarState

/-- The level of a variable, or the mark for having none. -/
def level : VarState → Int
  | .unbound l => l
  | .generic => Level.generic
  | .linked _ => Level.linked

/-- The state of a variable without a link at the given level.  At the level of
bound variables it is bound to nothing. -/
def atLevel (level : Int) : VarState :=
  if level = Level.generic then .generic
  else if level = Level.linked then .linked .lost
  else .unbound level

/-- Whether the variable is quantified. -/
def isGeneric : VarState → Bool
  | .generic => true
  | _ => false

/-- Whether a variable is unbound. -/
def isUnbound : VarState → Bool
  | .unbound _ => true
  | _ => false

end VarState

/-- What is stored for a variable. -/
structure Cell where
  /-- The number under which the variable is known. -/
  id : Int
  state : VarState
  deriving DecidableEq, Repr, Inhabited

/-- What stands for each variable number in an instance under construction, latest
first. -/
abbrev Renaming := List (Int × Ty)

/-- Type variables and what goes with them. -/
structure Store where
  cells : Array Cell := #[]
  /-- For each shared node, whether it is known to hold quantified variables. -/
  marks : Array Bool := #[]
  nextId : Nat := 0
  /-- The variables allocated since links were last compressed, latest first. -/
  recent : List Var := []
  speculative : Bool := false
  /-- Earlier states of changed variables, latest first. -/
  trail : List (Var × Cell) := []
  /-- What stands for quantified variables; it is empty between instances. -/
  renames : Renaming := []
  deriving DecidableEq, Repr, Inhabited

/-- Computations that use the store. -/
abbrev StoreM := StateM Store

namespace Store

/-! ## Looking up -/

/-- The variable at address `v`. -/
def cell (s : Store) (v : Var) : Cell := s.cells.getD v ⟨0, .linked .lost⟩

/-- The state of a variable. -/
def state (s : Store) (v : Var) : VarState := (s.cell v).state

/-- The number of a variable. -/
def id (s : Store) (v : Var) : Int := (s.cell v).id

/-- Number of variables, which bounds every walk along links. -/
def size (s : Store) : Nat := s.cells.size

/-- Follow at most `n` links. -/
def headAt (s : Store) : Nat → Ty → Ty
  | n + 1, .var v =>
    match s.state v with
    | .linked t => headAt s n t
    | _ => .var v
  | _, t => t

/-- The type behind a chain of links. -/
def head (s : Store) (t : Ty) : Ty := s.headAt s.size t

/-- The variables without a link that are reached from `t`, with at most `n` links
followed on the way to each. -/
def reachAt (s : Store) : Nat → Ty → List Var
  | 0, t => t.vars
  | n + 1, t => t.vars.flatMap fun v =>
    match s.state v with
    | .linked t => reachAt s n t
    | _ => [v]

/-- The variables without a link that are reached from `t`, in order and with
repetitions. -/
def reach (s : Store) (t : Ty) : List Var := s.reachAt s.size t

/-- The composite types reached from `t`, with at most `n` links followed on the
way to each. -/
def nodesAt (s : Store) : Nat → Ty → List Ty
  | 0, t => t.nodes
  | n + 1, t => t.nodes ++ t.vars.flatMap fun v =>
    match s.state v with
    | .linked t => nodesAt s n t
    | _ => []

/-- The composite parts of a type, also behind links. -/
def nodes (s : Store) (t : Ty) : List Ty := s.nodesAt s.size t

/-- The numbers of the unbound variables of a type. -/
def freeIds (s : Store) (t : Ty) : List Int :=
  ((s.reach t).filter fun v => (s.state v).isUnbound).map s.id

/-- Whether `m` is known to hold quantified variables. -/
def isMarked (s : Store) : Mark → Bool
  | .plain => false
  | .node n => s.marks.getD n false
  | .generic => true

/-- Whether `t` has to be copied before it is used: a quantified variable, or a
composite type that is marked.  There is no answer for a type that is missing. -/
def isGeneric (s : Store) (t : Ty) : Option Bool :=
  match s.head t with
  | .lost => none
  | .var v => some (s.state v).isGeneric
  | t => some (t.mark?.any s.isMarked)

/-- Whether a quantified variable is reached from `t`. -/
def holdsGeneric (s : Store) (t : Ty) : Bool :=
  (s.reach t).any fun v => (s.state v).isGeneric

/-! ## Changing variables -/

/-- Replace the variable at `v`. -/
def setCell (s : Store) (v : Var) (c : Cell) : Store :=
  { s with cells := s.cells.setIfInBounds v c }

/-- Change the state of a variable. -/
def setState (s : Store) (v : Var) (st : VarState) : Store :=
  s.setCell v { s.cell v with state := st }

/-- Put the present state of `v` on the trail if changes are recorded. -/
def record (s : Store) (v : Var) : Store :=
  if s.speculative then { s with trail := (v, s.cell v) :: s.trail } else s

/-- Link a variable to a type, on record. -/
def link (s : Store) (v : Var) (t : Ty) : Store := (s.record v).setState v (.linked t)

/-- Change the level of a variable, on record. -/
def lower (s : Store) (v : Var) (level : Int) : Store :=
  (s.record v).setState v (.atLevel level)

/-- Lower the unbound variables of `t` to `level`, so that no binding at `level` or
deeper quantifies them.  A level below all others becomes another one.  This is not recorded on the
trail. -/
def restrict (s : Store) (level : Int) (t : Ty) : Store :=
  (s.reach t).foldl (fun s v =>
    match s.state v with
    | .unbound l => if l > level then s.setState v (.atLevel (Level.ofInt level)) else s
    | _ => s) s

/-- Record that the node `m` holds quantified variables. -/
def setMark (s : Store) : Mark → Store
  | .node n => { s with marks := s.marks.setIfInBounds n true }
  | _ => s

/-- Bind every recent variable directly to the end of its chain of links, and forget
which variables are recent. -/
def compress (s : Store) : Store :=
  let flat := s.recent.foldl (fun s v =>
    match s.state v with
    | .linked t => s.setState v (.linked (s.head t))
    | _ => s) s
  { flat with recent := [] }

/-- Forget what stands for quantified variables. -/
def clearRenaming (s : Store) : Store := { s with renames := [] }

/-- Forget everything but the variables, the marks and the next number. -/
def reset (s : Store) : Store :=
  { s.clearRenaming with recent := [], speculative := false, trail := [] }

/-! ## Allocating -/

/-- Allocate a variable in the given state under a number of its own. -/
def allocate (id : Int) (state : VarState) : StoreM Var := fun s =>
  (s.size, { s with cells := s.cells.push ⟨id, state⟩ })

/-- Allocate an unbound variable at `level` under the next number. -/
def fresh (level : Int) : StoreM Var := fun s =>
  (s.size,
    { s with
      cells := s.cells.push ⟨Level.ofInt s.nextId, .atLevel (Level.ofInt level)⟩
      nextId := s.nextId + 1
      recent := s.size :: s.recent })

/-- A mark for a new part of a type. -/
def newMark : StoreM Mark := fun s =>
  (.node s.marks.size, { s with marks := s.marks.push false })

end Store

/-! ## Building types -/

namespace Ty

/-- A fresh unbound variable. -/
def fresh (level : Int) : StoreM Ty := return .var (← Store.fresh level)

/-- A type constructor applied to arguments. -/
def mkCon (name : String) (args : List Ty) : StoreM Ty :=
  if args.isEmpty then return const name else return .con (← Store.newMark) name args

/-- A function type. -/
def mkArrow (arg result : Ty) : StoreM Ty := return .arrow (← Store.newMark) arg result

/-- A curried function type. -/
def mkArrows : List Ty → Ty → StoreM Ty
  | [], result => return result
  | a :: as, result => do mkArrow a (← mkArrows as result)

/-- A tuple type, even of a single element. -/
def mkProduct (elems : List Ty) : StoreM Ty := return .tuple (← Store.newMark) elems

/-- A tuple type.  A tuple of one element is that element. -/
def mkTuple (elems : List Ty) : StoreM Ty :=
  match elems with
  | [] => return unit
  | [t] => return t
  | ts => mkProduct ts

/-- A row with the given fields in front. -/
def mkRowExtend (labels : LabelMap Ty) (row : Ty) : StoreM Ty :=
  return .rowExtend (← Store.newMark) labels row

/-- The same, but without fields it is the row itself. -/
def extendRow (labels : LabelMap Ty) (row : Ty) : StoreM Ty :=
  if labels.isEmpty then return row else mkRowExtend labels row

/-- A record type. -/
def mkRecord (labels : LabelMap Ty) (row : Ty) : StoreM Ty := do
  let row ← extendRow labels row
  return .record (← Store.newMark) row

/-- A list type. -/
def mkList (elem : Ty) : StoreM Ty := mkCon "list" [elem]

/-- A reference type. -/
def mkRef (elem : Ty) : StoreM Ty := mkCon "ref" [elem]

/-- Whether a type is a reference type. -/
def isRef (s : Store) (t : Ty) : Bool :=
  match s.head t with
  | .con _ name [_] => name == "ref"
  | _ => false

def formName : Ty → String
  | .var _ => "Var"
  | .con .. => "Const"
  | .arrow .. => "Arrow"
  | .tuple .. => "Tuple"
  | .record .. => "Record"
  | .rowExtend .. => "RowExtend"
  | .rowEmpty => "RowEmpty"
  | .lost => ""

end Ty

end Typecase
