import Typecase.LabelMap
import Typecase.Types.Datatype
set_option autoImplicit false

/-!
# Environments

An environment maps identifiers to type schemes and type names to type constructors.
It is a chain of frames: an inner frame hides what outer frames say about a name.
-/

namespace Typecase

/-- What an identifier stands for. -/
inductive Status where
  | value
  | constructor (con : Con)
  | exception (con : Con)
  deriving DecidableEq, Repr, Inhabited

/-- What an identifier stands for. -/
structure ValueEntry where
  scheme : Scheme
  status : Status := .value
  deriving DecidableEq, Repr, Inhabited

namespace ValueEntry

/-- The constructor that an identifier stands for. -/
def con? (e : ValueEntry) : Option Con :=
  match e.status with
  | .value => none
  | .constructor c | .exception c => some c

/-- Whether an identifier stands for a constructor or an exception. -/
def isConstructor (e : ValueEntry) : Bool := e.con?.isSome

end ValueEntry

/-- What a type name stands for. -/
inductive TypeMeaning where
  /-- A type without structure. -/
  | primitive
  | datatype (d : Datatype)
  | abbreviation (params : List Var) (body : Ty)
  deriving DecidableEq, Repr, Inhabited

/-- What a type name stands for. -/
structure TypeEntry where
  name : String
  meaning : TypeMeaning := .primitive
  deriving DecidableEq, Repr, Inhabited

namespace TypeEntry

/-- How many arguments the type constructor takes. -/
def arity (e : TypeEntry) : Nat :=
  match e.meaning with
  | .primitive => 0
  | .datatype d => d.params.length
  | .abbreviation params _ => params.length

/-- The datatype of an entry, if it is one. -/
def datatype? (e : TypeEntry) : Option Datatype :=
  match e.meaning with
  | .datatype d => some d
  | _ => none

end TypeEntry

/-- The bindings of one scope. -/
structure Frame where
  values : LabelMap ValueEntry := []
  types : LabelMap TypeEntry := []
  deriving DecidableEq, Repr, Inhabited

/-- An environment: the current frame and those around it, innermost first. -/
structure Env where
  current : Frame := {}
  outer : List Frame := []
  deriving DecidableEq, Repr, Inhabited

namespace Env

/-- The environment without any bindings. -/
def empty : Env := {}

/-- An environment with a new, empty frame inside `e`. -/
def scope (e : Env) : Env := { current := {}, outer := e.current :: e.outer }

/-- The environment around the current frame. -/
def parent? (e : Env) : Option Env :=
  match e.outer with
  | [] => none
  | f :: fs => some { current := f, outer := fs }

/-- All frames, innermost first. -/
def frames (e : Env) : List Frame := e.current :: e.outer

/-- Bind an identifier in the innermost scope. -/
def bindValue (e : Env) (name : String) (v : ValueEntry) : Env :=
  { e with current := { e.current with values := LabelMap.set e.current.values name v } }

/-- Bind a variable with a type scheme. -/
def bind (e : Env) (name : String) (σ : Scheme) : Env := e.bindValue name { scheme := σ }

/-- Bind a type name in the innermost scope. -/
def bindType (e : Env) (name : String) (t : TypeEntry) : Env :=
  { e with current := { e.current with types := LabelMap.set e.current.types name t } }

/-- The innermost binding of an identifier. -/
def value? (e : Env) (name : String) : Option ValueEntry :=
  e.frames.findSome? fun f => LabelMap.find? f.values name

/-- The innermost binding of a type name. -/
def type? (e : Env) (name : String) : Option TypeEntry :=
  e.frames.findSome? fun f => LabelMap.find? f.types name

/-- Whether an identifier stands for a constructor or an exception. -/
def isConstructor (e : Env) (name : String) : Bool := (e.value? name).any (·.isConstructor)

/-- Add the bindings in the current frame of `other` to the current frame of `e`. -/
def adopt (e other : Env) : Env :=
  { e with current := {
      values := LabelMap.extend e.current.values other.current.values
      types := LabelMap.extend e.current.types other.current.types } }

/-- The numbers of the unbound variables in the types of all identifiers. -/
def freeIds (e : Env) (s : Store) : List Int :=
  e.frames.flatMap fun f => f.values.flatMap fun v => s.freeIds v.2.scheme.type

/-- How many identifiers are bound, hidden ones included. -/
def size (e : Env) : Nat := e.frames.foldr (fun f n => LabelMap.size f.values + n) 0

end Env

end Typecase
