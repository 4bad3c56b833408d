import Typecase.Match.Pattern
import Typecase.Types.Scheme
set_option autoImplicit false

/-!
# Datatypes

A datatype has parameters and constructors.  An open datatype may gain constructors at
any time, so its list is never complete.
-/

namespace Typecase

/-- A constructor of a datatype. -/
structure Constructor where
  name : String
  /-- Its number within the datatype. -/
  tag : Nat
  /-- The type of the value it carries, over the parameters of the datatype. -/
  arg : Option Ty
  deriving DecidableEq, Repr, Inhabited

/-- A datatype.  Its number tells it from others of its name. -/
structure Datatype where
  id : Nat
  name : String
  /-- Quantified variables for the parameters, in order of declaration. -/
  params : List Var
  isOpen : Bool
  constructors : List Constructor
  deriving DecidableEq, Repr, Inhabited

namespace Datatype

/-- Append a constructor, under the next number. -/
def add (d : Datatype) (name : String) (arg : Option Ty) : Datatype :=
  { d with constructors := d.constructors ++ [⟨name, d.constructors.length, arg⟩] }

/-- The datatype applied to its own parameters. -/
def type (d : Datatype) : Ty :=
  if d.params.isEmpty then Ty.const d.name else .con .generic d.name (d.params.map Ty.var)

/-- The type scheme of a constructor. -/
def scheme (d : Datatype) (c : Constructor) : Scheme :=
  match c.arg with
  | none => ⟨d.params, d.type⟩
  | some t => ⟨d.params, .arrow (if d.params.isEmpty then .plain else .generic) t d.type⟩

/-- A constructor as it occurs in patterns and expressions. -/
def con (d : Datatype) (c : Constructor) (isExtension : Bool) : Con where
  datatype := d.id
  datatypeName := d.name
  siblings := if d.isOpen then none else some (d.constructors.map fun c => (c.name, c.arg.isSome))
  name := c.name
  tag := c.tag
  hasArg := c.arg.isSome
  isExtension := isExtension

end Datatype

end Typecase
