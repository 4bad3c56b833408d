import Typecase.Elaborate.State
import Typecase.Source.Basic
set_option autoImplicit false

/-!
# Elaborating type expressions

In the declaration of a type, only its parameters may occur as type variables.  In all
other places a type variable is brought into scope by its first occurrence.
-/

namespace Typecase.Elaborate

open Source

/-- The meaning of a type variable, among the parameters if they are given. -/
def typeVariable (params : Option (LabelMap Var)) (pos : Pos) (name : String) : ElaborateM Ty := do
  match params with
  | some params =>
    match LabelMap.find? params name with
    | some v => return .var v
    | none => fail pos (.unboundTypeVariable name)
  | none =>
    let s ← get
    match LabelMap.find? s.typeVars name with
    | some v => return .var v
    | none =>
      let v ← liftStore (Store.fresh s.typeVarLevel)
      modify fun s => { s with typeVars := LabelMap.set s.typeVars name v }
      return .var v

/-- The entry of a type constructor that is applied to `count` arguments. -/
def typeConstructor (env : Env) (pos : Pos) (name : String) (count : Nat) :
    ElaborateM TypeEntry := do
  match env.type? name with
  | none => fail pos (.unboundTypeConstructor name)
  | some entry =>
    if count = entry.arity then return entry
    else fail pos (.typeArguments name entry.arity count)

/-- A type constructor applied to arguments.  Abbreviations are expanded. -/
def applyType (level : Int) (entry : TypeEntry) (args : List Ty) : ElaborateM Ty :=
  match entry.meaning with
  | .abbreviation params body =>
    if args.isEmpty then return body
    else do
      ensure (·.isWhole body)
      liftStore (Store.instantiateWith level params args body)
  | _ => liftStore (Ty.mkCon entry.name args)

mutual

/-- Elaborate a type expression. -/
def elaborateType (env : Env) (level : Int) (params : Option (LabelMap Var)) :
    TypeExpr → ElaborateM Ty
  | .var pos name => typeVariable params pos name
  | .con pos name args => do
    let entry ← typeConstructor env pos name args.length
    let args ← elaborateTypes env level params args
    applyType level entry args
  | .arrow _ arg result => do
    let arg ← elaborateType env level params arg
    let result ← elaborateType env level params result
    liftStore (Ty.mkArrow arg result)
  | .tuple _ elems => do
    let elems ← elaborateTypes env level params elems
    liftStore (Ty.mkTuple elems)
  | .record pos fields => do
    let labels ← elaborateTypeFields env level params pos [] fields
    liftStore (Ty.mkRecord labels .rowEmpty)

/-- Elaborate type expressions from left to right. -/
def elaborateTypes (env : Env) (level : Int) (params : Option (LabelMap Var)) :
    List TypeExpr → ElaborateM (List Ty)
  | [] => return []
  | t :: ts => do
    let t ← elaborateType env level params t
    let ts ← elaborateTypes env level params ts
    return t :: ts

/-- The fields of a record type, after those in `labels`. -/
def elaborateTypeFields (env : Env) (level : Int) (params : Option (LabelMap Var)) (pos : Pos)
    (labels : LabelMap Ty) : List (String × TypeExpr) → ElaborateM (LabelMap Ty)
  | [] => return labels
  | (label, t) :: fields => do
    if LabelMap.has labels label then fail pos (.repeatedTypeField label)
    let t ← elaborateType env level params t
    elaborateTypeFields env level params pos (labels ++ [(label, t)]) fields

end

/-- Quantified variables for the parameters of a type, after those in `params`. -/
def typeParams (pos : Pos) (params : LabelMap Var) : List String → ElaborateM (LabelMap Var)
  | [] => return params
  | name :: names => do
    if LabelMap.has params name then fail pos (.repeatedTypeParameter name)
    let v ← liftStore (Store.fresh 0)
    liftStore (modify fun s => s.setState v .generic)
    typeParams pos (params ++ [(name, v)]) names

end Typecase.Elaborate
