import Typecase.Types.Tree
set_option autoImplicit false

/-!
# Type schemes

A type scheme is a type with the variables it quantifies.  A scheme arises from a
type by quantifying, in place, every unbound variable whose level is deeper than a
given one; the composite types around quantified variables are marked so that they
are copied when the scheme is used (`Typecase.Types.Instance`).
-/

namespace Typecase

/-- A type quantified over some of its variables. -/
structure Scheme where
  /-- The quantified variables, in order of first occurrence. -/
  bound : List Var
  type : Ty
  deriving DecidableEq, Repr, Inhabited

namespace Scheme

/-- A type that quantifies nothing. -/
def mono (t : Ty) : Scheme := ⟨[], t⟩

/-- Whether nothing is quantified. -/
def isMono (σ : Scheme) : Bool := σ.bound.isEmpty

end Scheme

/-- The first of the elements that share a key, in order. -/
def distinctBy {α κ : Type} [BEq κ] (key : α → κ) (xs : List α) : List α :=
  xs.foldl (fun acc x => if acc.any (fun y => key y == key x) then acc else acc ++ [x]) []

namespace Store

/-- The text of a type scheme. -/
def showScheme (s : Store) (σ : Scheme) : String := s.showType σ.type

/-- Quantify `v` if it is unbound at a level deeper than `level`. -/
def quantify (level : Int) (s : Store) (v : Var) : Store :=
  match s.state v with
  | .unbound l => if l > level then s.setState v .generic else s
  | _ => s

/-- Mark a part that holds quantified variables. -/
def markGeneric (s : Store) (t : Ty) : Store :=
  if s.holdsGeneric t then s.setMark (t.mark?.getD .plain) else s

/-- Quantify the unbound variables of `t` whose level is deeper than `level`.
Variables that were quantified before count as bound by the new scheme as well. -/
def generalize (level : Int) (t : Ty) : StoreM Scheme := fun s =>
  let t := s.head t
  let vars := s.reach t
  let s := vars.foldl (quantify level) s
  let bound := distinctBy s.id (vars.filter fun v => (s.state v).isGeneric)
  (⟨bound, t⟩, (s.nodes t).foldl markGeneric s)

/-- A quantified variable that is free in the environment. -/
structure Escape where
  /-- The number of the variable. -/
  id : Int
  scheme : Scheme
  deriving DecidableEq, Repr, Inhabited

/-- The wording of an escape. -/
def Escape.message (s : Store) (e : Escape) : String :=
  "Type-variable " ++ toString e.id ++ " of " ++ s.showScheme e.scheme ++
    " was generalized while free in the environment"

/-- The first variable of `σ` whose number is among those that are free in the
environment. -/
def escape? (s : Store) (free : List Int) (σ : Scheme) : Option Escape :=
  (σ.bound.find? fun v => free.contains (s.id v)).map fun v => ⟨s.id v, σ⟩

end Store

end Typecase
