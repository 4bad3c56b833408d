import Typecase.Types.Scheme
set_option autoImplicit false

/-!
# Instances of type schemes

An instance of a scheme is a copy of its type in which the quantified variables are
replaced by fresh ones.  Only marked types are copied; all others are shared between
the scheme and its instances.
-/

namespace Typecase

/-- Copying of types, with what stands for quantified variables. -/
abbrev InstanceM := StateT Renaming StoreM

namespace Store

/-- What stands for the quantified variable `v`: a fresh variable, unless there is
something already. -/
def rename (level : Int) (v : Var) : InstanceM Ty := do
  let id := (← getThe Store).id v
  match (← get).lookup id with
  | some t => return t
  | none =>
    let t ← Ty.fresh level
    modify ((id, t) :: ·)
    return t

mutual

/-- Copy `t` as far as it is marked.  `follow` goes on behind a link. -/
def copyWith (level : Int) (follow : Ty → InstanceM Ty) : Ty → InstanceM Ty
  | .var v => do
    match (← getThe Store).state v with
    | .linked t => follow t
    | .generic => rename level v
    | .unbound _ => return .var v
  | .con m name args => do
    if (← getThe Store).isMarked m then
      let args ← copyListWith level follow args
      return .con (← newMark) name args
    else return .con m name args
  | .arrow m a r => do
    if (← getThe Store).isMarked m then
      let a ← copyWith level follow a
      let r ← copyWith level follow r
      return .arrow (← newMark) a r
    else return .arrow m a r
  | .tuple m es => do
    if (← getThe Store).isMarked m then
      let es ← copyListWith level follow es
      return .tuple (← newMark) es
    else return .tuple m es
  | .record m row => do
    if (← getThe Store).isMarked m then
      let row ← copyWith level follow row
      return .record (← newMark) row
    else return .record m row
  | .rowExtend m labels row => do
    let s ← getThe Store
    if s.isMarked m then
      let copied ← copyFieldsWith level follow labels
      let row ← copyWith level follow row
      let labels := if labels.any (fun e => s.isGeneric e.2 = some true) then copied else labels
      return .rowExtend (← newMark) labels row
    else return .rowExtend m labels row
  | .rowEmpty => return .rowEmpty
  | .lost => return .lost

def copyListWith (level : Int) (follow : Ty → InstanceM Ty) : List Ty → InstanceM (List Ty)
  | [] => return []
  | t :: ts => do
    let t ← copyWith level follow t
    let ts ← copyListWith level follow ts
    return t :: ts

def copyFieldsWith (level : Int) (follow : Ty → InstanceM Ty) :
    List (String × Ty) → InstanceM (List (String × Ty))
  | [] => return []
  | (l, t) :: ts => do
    let t ← copyWith level follow t
    let ts ← copyFieldsWith level follow ts
    return (l, t) :: ts

end

/-- Copy `t`, following at most `n` links on every branch. -/
def copyAt (level : Int) : Nat → Ty → InstanceM Ty
  | 0 => copyWith level fun t => return t
  | n + 1 => copyWith level (copyAt level n)

mutual

/-- Whether a copy of `t` comes upon no missing type.  `follow` tells of what is behind a link. -/
def wholeWith (s : Store) (follow : Ty → Bool) : Ty → Bool
  | .var v =>
    match s.state v with
    | .linked t => follow t
    | _ => true
  | .con m _ args => !s.isMarked m || wholeListWith s follow args
  | .arrow m a r => !s.isMarked m || wholeWith s follow a && wholeWith s follow r
  | .tuple m es => !s.isMarked m || wholeListWith s follow es
  | .record m row => !s.isMarked m || wholeWith s follow row
  | .rowExtend m labels row =>
    !s.isMarked m || wholeFieldsWith s follow labels && wholeWith s follow row
  | .rowEmpty => true
  | .lost => false

def wholeListWith (s : Store) (follow : Ty → Bool) : List Ty → Bool
  | [] => true
  | t :: ts => wholeWith s follow t && wholeListWith s follow ts

def wholeFieldsWith (s : Store) (follow : Ty → Bool) : List (String × Ty) → Bool
  | [] => true
  | (_, t) :: ts => wholeWith s follow t && wholeFieldsWith s follow ts

end

/-- Whether a copy of `t` comes upon no missing type behind at most `n` links on every branch. -/
def wholeAt (s : Store) : Nat → Ty → Bool
  | 0 => s.wholeWith fun _ => true
  | n + 1 => s.wholeWith (s.wholeAt n)

/-- Whether a copy of `t` comes upon no missing type.  Only such types can be copied. -/
def isWhole (s : Store) (t : Ty) : Bool := s.wholeAt s.size t

/-- Copy `t` with the given variable numbers standing for types and all other
quantified variables for fresh variables at `level`.  The renaming of the store is taken
up, left behind by the copy, and then forgotten. -/
def instantiateFrom (level : Int) (known : Renaming) (t : Ty) : StoreM Ty := do
  let s ← get
  let t := s.head t
  if s.isGeneric t = some true then
    let (copy, renames) ← (copyAt level s.size t).run (known ++ s.renames)
    modify ({ · with renames })
    modify clearRenaming
    return copy
  else return t

/-- Copy `t` with fresh variables at `level` for its quantified variables. -/
def instantiateType (level : Int) (t : Ty) : StoreM Ty := instantiateFrom level [] t

/-- Replace the parameters of `body` by arguments, and its other quantified variables
by fresh ones at `level`. -/
def instantiateWith (level : Int) (params : List Var) (args : List Ty) (body : Ty) :
    StoreM Ty := do
  let s ← get
  instantiateFrom level ((params.map s.id).zip args).reverse body

/-- An instance of a type scheme. -/
def instantiate (level : Int) (σ : Scheme) : StoreM Ty :=
  if σ.isMono then return σ.type else instantiateType level σ.type

end Store

end Typecase
