import Typecase.Elaborate.TypeExpr
set_option autoImplicit false

/-!
# Elaborating patterns

A name in a pattern is a constructor if the environment says so, and otherwise a
variable that the pattern binds.  List patterns are expanded into constructors.
-/

namespace Typecase.Elaborate

/-- The variables that a pattern binds, with their types, in order. -/
abbrev PatternVars := List (String × Ty)

/-- Elaboration of a pattern, which collects variables. -/
abbrev PatternM := StateT PatternVars ElaborateM

/-- The type of a literal. -/
def literalType : LiteralKind → Ty
  | .int => Ty.int
  | .real => Ty.real
  | .string => Ty.string
  | .char => Ty.char

/-- The constructor of a name, and its type scheme. -/
def constructor (env : Env) (pos : Pos) (name : String) : ElaborateM (Con × Scheme) := do
  match env.value? name with
  | none => fail pos (.unboundConstructor name)
  | some entry =>
    match entry.con? with
    | some con => return (con, entry.scheme)
    | none => fail pos (.unboundConstructor name)

/-- Stop with an error about a pattern. -/
def failPattern {α : Type} (pos : Pos) (p : Problem) : PatternM α :=
  monadLift (fail pos p : ElaborateM α)

/-- Add a variable, which must be new in the pattern. -/
def bindVar (pos : Pos) (name : String) (t : Ty) : PatternM Unit := do
  let vars ← get
  if LabelMap.has vars name then failPattern pos (.repeatedVariable name)
  set (vars ++ [(name, t)])

/-- Bind the variables of a pattern in an environment. -/
def bindVars (env : Env) (vars : PatternVars) : Env :=
  vars.foldl (fun env v => env.bind v.1 (.mono v.2)) env

/-- A constructor, which is used at type `t`, applied to an argument. -/
def conPattern (pos : Pos) (con : Con) (t : Ty) (arg : Option (Pattern Note)) :
    ElaborateM (Pattern Note) := do
  match con.hasArg, arg with
  | true, none => fail pos (.missingArgument con.name)
  | false, some _ => fail pos (.unexpectedArgument con.name)
  | false, none => return .con ⟨pos, t⟩ con none
  | true, some p =>
    match (← getStore).head t with
    | .arrow _ a r =>
      unify p.pos a p.type
      return .con ⟨pos, r⟩ con (some p)
    | t => return .con ⟨pos, t⟩ con (some p)

/-- The pattern for a list of the given elements. -/
def listPattern (pos : Pos) (nil cons : Con) (elem list : Ty) :
    List (Pattern Note) → ElaborateM (Pattern Note)
  | [] => return .con ⟨pos, list⟩ nil none
  | p :: ps => do
    let tail ← listPattern pos nil cons elem list ps
    let pair ← liftStore (Ty.mkTuple [elem, list])
    return .con ⟨p.pos, list⟩ cons (some (.tuple ⟨p.pos, pair⟩ [p, tail]))

mutual

/-- Elaborate a pattern. -/
def elaboratePattern (env : Env) (level : Int) : Source.Pattern → PatternM (Pattern Note)
  | .wildcard pos => do return .wildcard ⟨pos, ← freshType level⟩
  | .var pos name => do
    match (env.value? name).bind fun entry => entry.con?.map fun con => (con, entry.scheme) with
    | some (con, σ) =>
      let t ← instantiate level σ
      conPattern pos con t none
    | none =>
      let t ← freshType level
      bindVar pos name t
      return .var ⟨pos, t⟩ name
  | .literal pos lit => do
    if lit.kind = .real then failPattern pos .realPattern
    return .literal ⟨pos, literalType lit.kind⟩ lit
  | .con pos name none => do
    let (con, σ) ← constructor env pos name
    let t ← instantiate level σ
    conPattern pos con t none
  | .con pos name (some arg) => do
    let (con, σ) ← constructor env pos name
    let t ← instantiate level σ
    let arg ← elaboratePattern env level arg
    conPattern pos con t (some arg)
  | .tuple pos elems => do
    match ← elaboratePatterns env level elems with
    | [p] => return p
    | ps => return .tuple ⟨pos, ← liftStore (Ty.mkTuple (ps.map Pattern.type))⟩ ps
  | .record pos fields flexible => do
    let fields ← elaboratePatternFields env level pos [] fields
    let row ← if flexible then freshType level else pure .rowEmpty
    let t ← liftStore (Ty.mkRecord (fields.map fun f => (f.1, f.2.type)) row)
    return .record ⟨pos, t⟩ fields flexible
  | .layered pos name pattern => do
    if env.isConstructor name then
      failPattern pos (.layeredConstructor name)
    let p ← elaboratePattern env level pattern
    bindVar pos name p.type
    return .layered ⟨pos, p.type⟩ name p
  | .list pos elems => do
    let (nil, _) ← constructor env pos "nil"
    let (cons, _) ← constructor env pos "::"
    let elem ← freshType level
    let list ← liftStore (Ty.mkList elem)
    let ps ← elaborateElements env level elem elems
    listPattern pos nil cons elem list ps
  | .annot pos pattern type => do
    let p ← elaboratePattern env level pattern
    let t ← elaborateType env level none type
    unify pos t p.type
    return p

/-- Elaborate patterns from left to right. -/
def elaboratePatterns (env : Env) (level : Int) :
    List Source.Pattern → PatternM (List (Pattern Note))
  | [] => return []
  | p :: ps => do
    let p ← elaboratePattern env level p
    let ps ← elaboratePatterns env level ps
    return p :: ps

/-- Elaborate patterns for elements of one type. -/
def elaborateElements (env : Env) (level : Int) (elem : Ty) :
    List Source.Pattern → PatternM (List (Pattern Note))
  | [] => return []
  | p :: ps => do
    let p ← elaboratePattern env level p
    unify p.pos elem p.type
    let ps ← elaborateElements env level elem ps
    return p :: ps

/-- Elaborate the fields of a record pattern, after those in `done`. -/
def elaboratePatternFields (env : Env) (level : Int) (pos : Pos)
    (done : List (String × Pattern Note)) :
    List (String × Source.Pattern) → PatternM (List (String × Pattern Note))
  | [] => return done
  | (label, p) :: fields => do
    if LabelMap.has done label then
      failPattern pos (.repeatedPatternField label)
    let p ← elaboratePattern env level p
    elaboratePatternFields env level pos (done ++ [(label, p)]) fields

end

end Typecase.Elaborate
