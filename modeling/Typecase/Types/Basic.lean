import Typecase.LabelMap
set_option autoImplicit false

/-!
# Types

A type is a variable, an applied type constructor, a function type, a tuple type
or a record type.  The fields of a record form a row: extensions by labelled types
that end in the empty row, in which case the record is rigid, or in a variable, in
which case the record is flexible and may gain fields.

Variables are addresses into a store (`Typecase.Types.Store`), which knows whether
a variable is unbound, quantified or bound to a type.

Every composite type carries a mark.  A mark is the identity of a node that several
types may share: once the store knows that the node holds quantified variables, this
is seen wherever the node occurs.
-/

namespace Typecase

/-- Address of a type variable in the store. -/
abbrev Var := Nat

/-- Identity of a composite type, as far as it matters. -/
inductive Mark where
  /-- A node without variables below it. -/
  | plain
  | node (n : Nat)
  /-- A node built around quantified variables. -/
  | generic
  deriving DecidableEq, Repr, Inhabited

/-- Types over the variables of a store. -/
inductive Ty where
  /-- A variable. -/
  | var (v : Var)
  /-- A type constructor applied to its arguments: `int`, `'a list`. -/
  | con (mark : Mark) (name : String) (args : List Ty)
  | arrow (mark : Mark) (arg result : Ty)
  /-- A tuple type.  The empty tuple is `unit`. -/
  | tuple (mark : Mark) (elems : List Ty)
  | record (mark : Mark) (row : Ty)
  /-- A row that starts with the given labels and goes on with `row`. -/
  | rowExtend (mark : Mark) (labels : List (String × Ty)) (row : Ty)
  | rowEmpty
  /-- No type at all: what a variable shows that is bound to nothing. -/
  | lost
  deriving Repr, Inhabited

namespace Ty

/-! ## Equality -/

mutual

/-- Whether two types agree in every node, marks included. -/
def same : Ty → Ty → Bool
  | .var v, .var w => v == w
  | .con m n as, .con m' n' as' => m == m' && n == n' && sameList as as'
  | .arrow m a r, .arrow m' a' r' => m == m' && same a a' && same r r'
  | .tuple m es, .tuple m' es' => m == m' && sameList es es'
  | .record m r, .record m' r' => m == m' && same r r'
  | .rowExtend m ls r, .rowExtend m' ls' r' => m == m' && sameFields ls ls' && same r r'
  | .rowEmpty, .rowEmpty => true
  | .lost, .lost => true
  | _, _ => false

def sameList : List Ty → List Ty → Bool
  | [], [] => true
  | a :: as, b :: bs => same a b && sameList as bs
  | _, _ => false

/-- Entrywise `same`, labels included. -/
def sameFields : List (String × Ty) → List (String × Ty) → Bool
  | [], [] => true
  | (l, a) :: as, (l', b) :: bs => l == l' && same a b && sameFields as bs
  | _, _ => false

end

mutual

theorem same_iff : (a b : Ty) → (same a b = true ↔ a = b)
  | .var _, b => by cases b <;> simp [same]
  | .con _ _ as, b => by cases b <;> simp [same, sameList_iff as, and_assoc]
  | .arrow _ x r, b => by cases b <;> simp [same, same_iff x, same_iff r, and_assoc]
  | .tuple _ es, b => by cases b <;> simp [same, sameList_iff es]
  | .record _ r, b => by cases b <;> simp [same, same_iff r]
  | .rowExtend _ ls r, b => by cases b <;> simp [same, sameFields_iff ls, same_iff r, and_assoc]
  | .rowEmpty, b => by cases b <;> simp [same]
  | .lost, b => by cases b <;> simp [same]

theorem sameList_iff : (as bs : List Ty) → (sameList as bs = true ↔ as = bs)
  | [], bs => by cases bs <;> simp [sameList]
  | a :: as, bs => by cases bs <;> simp [sameList, same_iff a, sameList_iff as]

theorem sameFields_iff : (as bs : List (String × Ty)) → (sameFields as bs = true ↔ as = bs)
  | [], bs => by cases bs <;> simp [sameFields]
  | (l, a) :: as, bs => by
    cases bs with
    | nil => simp [sameFields]
    | cons b bs =>
      obtain ⟨l', b⟩ := b
      simp [sameFields, same_iff a, sameFields_iff as]

end

instance : DecidableEq Ty := fun a b => decidable_of_iff _ (same_iff a b)

/-! ## Common types -/

/-- A type constructor without arguments. -/
def const (name : String) : Ty := .con .plain name []

def int : Ty := const "int"

def real : Ty := const "real"

/-- The type of truth values. -/
def bool : Ty := const "bool"

def string : Ty := const "string"

def char : Ty := const "char"

def exn : Ty := const "exn"

def unit : Ty := .tuple .plain []

/-! ## Parts of a type -/

def mark? : Ty → Option Mark
  | .con m _ _ | .arrow m _ _ | .tuple m _ | .record m _ | .rowExtend m _ _ => some m
  | .var _ | .rowEmpty | .lost => none

mutual

/-- The variables written in a type, in order and with repetitions.  The fields of
a row come before what follows them. -/
def vars : Ty → List Var
  | .var v => [v]
  | .con _ _ args => varsList args
  | .arrow _ a r => vars a ++ vars r
  | .tuple _ es => varsList es
  | .record _ r => vars r
  | .rowExtend _ ls r => varsFields ls ++ vars r
  | .rowEmpty => []
  | .lost => []

def varsList : List Ty → List Var
  | [] => []
  | t :: ts => vars t ++ varsList ts

/-- The variables of labelled types. -/
def varsFields : List (String × Ty) → List Var
  | [] => []
  | (_, t) :: ts => vars t ++ varsFields ts

end

mutual

/-- The composite parts of a type, each before its own parts. -/
def nodes : Ty → List Ty
  | .var _ => []
  | .con m n args => .con m n args :: nodesList args
  | .arrow m a r => .arrow m a r :: (nodes a ++ nodes r)
  | .tuple m es => .tuple m es :: nodesList es
  | .record m r => .record m r :: nodes r
  | .rowExtend m ls r => .rowExtend m ls r :: (nodesFields ls ++ nodes r)
  | .rowEmpty => []
  | .lost => []

def nodesList : List Ty → List Ty
  | [] => []
  | t :: ts => nodes t ++ nodesList ts

/-- The composite parts of labelled types. -/
def nodesFields : List (String × Ty) → List Ty
  | [] => []
  | (_, t) :: ts => nodes t ++ nodesFields ts

end

mutual

/-- Number of constructors on the longest branch of a type. -/
def depth : Ty → Nat
  | .var _ => 1
  | .con _ _ args => depthList args + 1
  | .arrow _ a r => max (depth a) (depth r) + 1
  | .tuple _ es => depthList es + 1
  | .record _ r => depth r + 1
  | .rowExtend _ ls r => max (depthFields ls) (depth r) + 1
  | .rowEmpty => 1
  | .lost => 1

def depthList : List Ty → Nat
  | [] => 0
  | t :: ts => max (depth t) (depthList ts)

def depthFields : List (String × Ty) → Nat
  | [] => 0
  | (_, t) :: ts => max (depth t) (depthFields ts)

end

end Ty

end Typecase
