import Typecase.Types.Row
set_option autoImplicit false

/-!
# Resolved types

A resolved type is what remains of a type when every link is followed: a finite tree
without bound variables and without marks, in which a record lists its fields.

Resolved types are how types are compared and how they are shown.  A type is printed
with the quantified variables named `'a`, `'b`, … and the unbound ones `'_a`, `'_b`, …,
both in order of appearance.
-/

namespace Typecase

/-- Types with all links followed. -/
inductive Tree where
  /-- A variable without a link: its address, its number, and whether it is quantified. -/
  | var (v : Var) (id : Int) (generic : Bool)
  /-- An applied type constructor. -/
  | con (name : String) (args : List Tree)
  | arrow (arg result : Tree)
  | tuple (elems : List Tree)
  | record (fields : List (String × Tree)) (rest : RowEnd)
  | invalidRecord
  | lost
  deriving Repr, Inhabited

namespace Store

mutual

/-- The resolved form of a type.  `follow` and `followRow` go on behind links. -/
def resolveWith (s : Store) (follow : Ty → Tree)
    (followRow : Ty → Option (LabelMap Tree × RowEnd)) : Ty → Tree
  | .var v =>
    match s.state v with
    | .linked t => follow t
    | st => .var v (s.id v) st.isGeneric
  | .con _ name args => .con name (resolveListWith s follow followRow args)
  | .arrow _ a r => .arrow (resolveWith s follow followRow a) (resolveWith s follow followRow r)
  | .tuple _ es => .tuple (resolveListWith s follow followRow es)
  | .record _ row =>
    match resolveRowWith s follow followRow row with
    | some (fields, rest) => .record fields rest
    | none => .invalidRecord
  | .rowExtend _ labels row =>
    match resolveRowWith s follow followRow row with
    | some (fields, rest) =>
      .record (LabelMap.extend (resolveFieldsWith s follow followRow labels) fields) rest
    | none => .invalidRecord
  | .rowEmpty => .record [] .rigid
  | .lost => .lost

/-- The fields and the end of a row, resolved. -/
def resolveRowWith (s : Store) (follow : Ty → Tree)
    (followRow : Ty → Option (LabelMap Tree × RowEnd)) : Ty → Option (LabelMap Tree × RowEnd)
  | .rowExtend _ labels row =>
    match resolveRowWith s follow followRow row with
    | some (fields, rest) =>
      some (LabelMap.extend (resolveFieldsWith s follow followRow labels) fields, rest)
    | none => none
  | .var v =>
    match s.state v with
    | .linked t => followRow t
    | _ => some ([], .flexible v)
  | .rowEmpty => some ([], .rigid)
  | _ => none

def resolveListWith (s : Store) (follow : Ty → Tree)
    (followRow : Ty → Option (LabelMap Tree × RowEnd)) : List Ty → List Tree
  | [] => []
  | t :: ts => resolveWith s follow followRow t :: resolveListWith s follow followRow ts

def resolveFieldsWith (s : Store) (follow : Ty → Tree)
    (followRow : Ty → Option (LabelMap Tree × RowEnd)) : List (String × Ty) → List (String × Tree)
  | [] => []
  | (l, t) :: ts =>
    (l, resolveWith s follow followRow t) :: resolveFieldsWith s follow followRow ts

end

mutual

/-- The resolved form of a type, with at most `n` links followed on every branch. -/
def resolveAt (s : Store) : Nat → Ty → Tree
  | 0 => s.resolveWith (fun _ => .lost) (fun _ => none)
  | n + 1 => s.resolveWith (resolveAt s n) (resolveRowAt s n)

/-- The resolved form of a row, with at most `n` links followed on every branch. -/
def resolveRowAt (s : Store) : Nat → Ty → Option (LabelMap Tree × RowEnd)
  | 0 => s.resolveRowWith (fun _ => .lost) (fun _ => none)
  | n + 1 => s.resolveRowWith (resolveAt s n) (resolveRowAt s n)

end

/-- The tree of a type. -/
def resolve (s : Store) (t : Ty) : Tree := s.resolveAt s.size t

end Store

/-! ## Printing -/

/-- Names given to variables so far. -/
structure Names where
  assigned : List (Int × String) := []
  generic : Nat := 0
  unbound : Nat := 0
  deriving DecidableEq, Repr, Inhabited

namespace Names

/-- The `i`-th name: a letter, followed by the number of rounds through the alphabet. -/
def nth (quote : String) (i : Nat) : String :=
  let letter := quote ++ (Char.ofNat (97 + i % 26)).toString
  if i < 26 then letter else letter ++ toString (i / 26)

/-- The name of a variable, a new one if its number has not appeared before. -/
def name (id : Int) (generic : Bool) : StateM Names String := fun ns =>
  match ns.assigned.lookup id with
  | some name => (name, ns)
  | none =>
    if generic then
      let name := nth "'" ns.generic
      (name, { ns with assigned := (id, name) :: ns.assigned, generic := ns.generic + 1 })
    else
      let name := nth "'_" ns.unbound
      (name, { ns with assigned := (id, name) :: ns.assigned, unbound := ns.unbound + 1 })

end Names

namespace Tree

/-- Where a type is printed. -/
inductive Place where
  /-- Any type may stand here. -/
  | loose
  | product
  /-- A function or tuple type needs parentheses. -/
  | operand
  deriving DecidableEq, Repr, Inhabited

/-- Put a text in parentheses where they are needed. -/
def parenthesize (needed : Bool) (text : String) : String :=
  if needed then "(" ++ text ++ ")" else text

mutual

/-- The text of a tree at a place. -/
def render (place : Place) : Tree → StateM Names String
  | .var _ id generic => Names.name id generic
  | .con name args => do
    match ← renderList (if args.length = 1 then .operand else .loose) args with
    | [] => return name
    | [arg] => return arg ++ " " ++ name
    | texts => return "(" ++ ", ".intercalate texts ++ ") " ++ name
  | .arrow a r => do
    let arg ← render .product a
    let result ← render .loose r
    return parenthesize (place != .loose) (arg ++ " -> " ++ result)
  | .tuple es => do
    match ← renderList .operand es with
    | [] => return "unit"
    | texts => return parenthesize (place == .operand) (" * ".intercalate texts)
  | .record fields rest => do
    let texts ← renderFields fields
    let texts := match rest with
      | .rigid => texts
      | .flexible _ => texts ++ ["..."]
    return "\x7b" ++ ", ".intercalate texts ++ "\x7d"
  | .invalidRecord => return "\x7b<INVALID-ROW>\x7d"
  | .lost => return ""

def renderList (place : Place) : List Tree → StateM Names (List String)
  | [] => return []
  | t :: ts => do
    let text ← render place t
    let texts ← renderList place ts
    return text :: texts

/-- The texts of the fields of a record. -/
def renderFields : List (String × Tree) → StateM Names (List String)
  | [] => return []
  | (l, t) :: ts => do
    let text ← render .loose t
    let texts ← renderFields ts
    return (l ++ ": " ++ text) :: texts

end

end Tree

namespace Store

/-- The texts of several types, which share the names of their variables. -/
def showTypes (s : Store) (ts : List Ty) : List String :=
  ((ts.mapM fun t => (s.resolve t).render .loose).run {}).1

/-- The text of a type. -/
def showType (s : Store) (t : Ty) : String := (((s.resolve t).render .loose).run {}).1

end Store

end Typecase
