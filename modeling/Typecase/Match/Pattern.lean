import Typecase.Lexical
set_option autoImplicit false

/-!
# Patterns

Patterns in the form in which they are matched: every constructor is resolved, and
every node carries a note (its type and position, after elaboration).
-/

namespace Typecase

/-- A constructor as matching sees it: what it is called, whether it carries a value,
and which constructors its datatype has. -/
structure Con where
  datatype : Nat
  datatypeName : String
  /-- The constructors of the datatype with whether they carry a value, by tag.  There
  is no such list for an open datatype, which may gain constructors at any time. -/
  siblings : Option (List (String × Bool))
  name : String
  /-- Its number within the datatype. -/
  tag : Nat
  /-- Whether it carries a value. -/
  hasArg : Bool
  /-- Whether it was added to an open datatype by a declaration of its own. -/
  isExtension : Bool
  deriving DecidableEq, Repr, Inhabited

namespace Con

/-- Whether the datatype may gain constructors. -/
def isOpen (c : Con) : Bool := c.siblings.isNone

/-- The constructor with its datatype and number: `option.SOME#1`. -/
def render (c : Con) : String := c.datatypeName ++ "." ++ c.name ++ "#" ++ toString c.tag

end Con

/-- Patterns with a note of type `α` at every node. -/
inductive Pattern (α : Type) where
  | wildcard (note : α)
  | var (note : α) (name : String)
  | literal (note : α) (lit : Literal)
  /-- Matches values built by a constructor. -/
  | con (note : α) (con : Con) (arg : Option (Pattern α))
  | tuple (note : α) (elems : List (Pattern α))
  /-- Matches a record.  A flexible pattern leaves out some of the fields. -/
  | record (note : α) (fields : List (String × Pattern α)) (flexible : Bool)
  /-- Matches what `pattern` matches and binds it to a name. -/
  | layered (note : α) (name : String) (pattern : Pattern α)
  /-- A pattern that was left out.  It stands for any value. -/
  | omitted
  deriving Repr, Inhabited

namespace Pattern

variable {α : Type}

def formName : Pattern α → String
  | .wildcard _ => "Wildcard"
  | .var .. => "Var"
  | .literal .. => "Literal"
  | .con .. => "Con"
  | .tuple .. => "Tuple"
  | .record .. => "Record"
  | .layered .. => "As"
  | .omitted => ""

/-- What is noted at a pattern. -/
def note? : Pattern α → Option α
  | .wildcard n | .var n _ | .literal n _ | .con n _ _ | .tuple n _ | .record n _ _
  | .layered n _ _ => some n
  | .omitted => none

/-- Whether a pattern neither tests nor binds anything. -/
def isWild : Pattern α → Bool
  | .wildcard _ | .omitted => true
  | _ => false

mutual

/-- Whether a pattern matches every value of its type, judged by its form: a
constructor has to be the only one of a closed datatype. -/
def isIrrefutable : Pattern α → Bool
  | .wildcard _ => true
  | .var _ _ => true
  | .literal _ _ => false
  | .con _ c none => c.siblings.any (·.length == 1)
  | .con _ c (some p) => c.siblings.any (·.length == 1) && isIrrefutable p
  | .tuple _ ps => areIrrefutable ps
  | .record _ fs _ => fieldsIrrefutable fs
  | .layered _ _ p => isIrrefutable p
  | .omitted => false

def areIrrefutable : List (Pattern α) → Bool
  | [] => true
  | p :: ps => isIrrefutable p && areIrrefutable ps

def fieldsIrrefutable : List (String × Pattern α) → Bool
  | [] => true
  | (_, p) :: fs => isIrrefutable p && fieldsIrrefutable fs

end

mutual

/-- The names that a pattern binds, in order of appearance. -/
def names : Pattern α → List String
  | .wildcard _ => []
  | .var _ x => [x]
  | .literal _ _ => []
  | .con _ _ none => []
  | .con _ _ (some p) => names p
  | .tuple _ ps => namesList ps
  | .record _ fs _ => namesFields fs
  | .layered _ x p => x :: names p
  | .omitted => []

def namesList : List (Pattern α) → List String
  | [] => []
  | p :: ps => names p ++ namesList ps

def namesFields : List (String × Pattern α) → List String
  | [] => []
  | (_, p) :: fs => names p ++ namesFields fs

end

mutual

/-- Number of nodes of a pattern. -/
def size : Pattern α → Nat
  | .wildcard _ => 1
  | .var _ _ => 1
  | .literal _ _ => 1
  | .con _ _ none => 1
  | .con _ _ (some p) => size p + 1
  | .tuple _ ps => sizeList ps + 1
  | .record _ fs _ => sizeFields fs + 1
  | .layered _ _ p => size p + 1
  | .omitted => 1

def sizeList : List (Pattern α) → Nat
  | [] => 0
  | p :: ps => size p + sizeList ps

def sizeFields : List (String × Pattern α) → Nat
  | [] => 0
  | (_, p) :: fs => size p + sizeFields fs

end

end Pattern

end Typecase
