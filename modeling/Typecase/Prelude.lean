import Typecase.Environment
set_option autoImplicit false

/-!
# The prelude

The environment in which programs start: the primitive types, the datatypes `bool`,
`list`, `ref`, `option` and `order`, the exceptions `Match`, `Bind`, `Div` and `Fail`, and
operators on integers, strings and references.

The quantified variables of the prelude have negative numbers, so they never meet those
of a program.
-/

namespace Typecase.Prelude

/-- A prelude under construction. -/
structure Draft where
  env : Env := .empty
  /-- How many quantified variables there are. -/
  quantifiers : Nat := 0
  exceptions : Nat := 0
  deriving DecidableEq, Repr, Inhabited

/-- Construction of a prelude. -/
abbrev DraftM := StateT Draft StoreM

/-- A new quantified variable. -/
def quantified : DraftM Var := do
  modify fun p => { p with quantifiers := p.quantifiers + 1 }
  Store.allocate (-((← get).quantifiers : Int)) .generic

/-- Bind a type under its own name. -/
def bindType (name : String) (meaning : TypeMeaning) : DraftM Unit :=
  modify fun p => { p with env := p.env.bindType name ⟨name, meaning⟩ }

/-- Bind an identifier. -/
def bindValue (name : String) (v : ValueEntry) : DraftM Unit :=
  modify fun p => { p with env := p.env.bindValue name v }

/-- Declare a datatype with the given constructors. -/
def declare (d : Datatype) (constructors : List (String × Option Ty)) : DraftM Unit := do
  constructors.forM fun c => c.2.forM fun t => discard (Store.generalize 0 t)
  let d := constructors.foldl (fun d c => d.add c.1 c.2) d
  bindType d.name (.datatype d)
  d.constructors.forM fun c => bindValue c.name ⟨d.scheme c, .constructor (d.con c false)⟩

/-- Declare an exception, under the next number. -/
def exception (exn : Datatype) (name : String) (arg : Option Ty) : DraftM Unit := do
  let c : Constructor := ⟨name, (← get).exceptions, arg⟩
  modify fun p => { p with exceptions := p.exceptions + 1 }
  bindValue name ⟨exn.scheme c, .exception (exn.con c false)⟩

/-- Declare a value, with its type quantified over all variables. -/
def value (name : String) (t : Ty) : DraftM Unit := do
  let σ ← Store.generalize 0 t
  bindValue name { scheme := σ }

/-- Declare functions of one type. -/
def functions (names : List String) (arg result : Ty) : DraftM Unit :=
  names.forM fun name => do value name (← Ty.mkArrow arg result)

/-- How many datatypes the prelude declares.  They are numbered from zero. -/
def datatypeCount : Nat := 6

/-- Declare the types and their constructors. -/
def types : DraftM Datatype := do
  ["int", "real", "string", "char"].forM fun name => bindType name .primitive
  bindType "unit" (.abbreviation [] Ty.unit)
  let exn : Datatype := ⟨0, "exn", [], true, []⟩
  declare exn []
  declare ⟨1, "bool", [], false, []⟩ [("false", none), ("true", none)]
  let a ← quantified
  let pair ← Ty.mkTuple [.var a, ← Ty.mkList (.var a)]
  declare ⟨2, "list", [a], false, []⟩ [("nil", none), ("::", some pair)]
  let a ← quantified
  declare ⟨3, "ref", [a], false, []⟩ [("ref", some (.var a))]
  let a ← quantified
  declare ⟨4, "option", [a], false, []⟩ [("NONE", none), ("SOME", some (.var a))]
  declare ⟨5, "order", [], false, []⟩ [("LESS", none), ("EQUAL", none), ("GREATER", none)]
  return exn

/-- Declare the exceptions. -/
def exceptions (exn : Datatype) : DraftM Unit := do
  exception exn "Match" none
  exception exn "Bind" none
  exception exn "Div" none
  exception exn "Fail" (some Ty.string)

/-- Declare the operators. -/
def operators : DraftM Unit := do
  let integers ← Ty.mkTuple [Ty.int, Ty.int]
  functions ["+", "-", "*", "div", "mod"] integers Ty.int
  functions ["<", ">", "<=", ">="] integers Ty.bool
  functions ["~"] Ty.int Ty.int
  functions ["compare"] integers (Ty.const "order")
  ["=", "<>"].forM fun name => do
    let a ← quantified
    functions [name] (← Ty.mkTuple [.var a, .var a]) Ty.bool
  functions ["^"] (← Ty.mkTuple [Ty.string, Ty.string]) Ty.string
  functions ["size"] Ty.string Ty.int
  functions ["print"] Ty.string Ty.unit
  functions ["not"] Ty.bool Ty.bool
  functions ["real"] Ty.int Ty.real
  functions ["floor"] Ty.real Ty.int
  let a ← quantified
  functions ["!"] (← Ty.mkRef (.var a)) (.var a)
  let a ← quantified
  functions [":="] (← Ty.mkTuple [← Ty.mkRef (.var a), .var a]) Ty.unit

/-- Declare everything. -/
def build : DraftM Unit := do
  exceptions (← types)
  operators

end Typecase.Prelude

namespace Typecase.Env

/-- A prelude with variables of its own. -/
def initial : StoreM Env := do
  let (_, p) ← Prelude.build.run {}
  return p.env

end Typecase.Env
