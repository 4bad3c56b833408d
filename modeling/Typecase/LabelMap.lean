set_option autoImplicit false

/-!
# Label maps

A label map gives a value to each of finitely many labels and remembers the order
in which the labels came.  Setting a label that is present keeps its place.

A builder collects labels that may also be taken away again.  It keeps every
insertion that made a label present, so a label that is removed and inserted
again is visited once for each of these insertions when the map is built.
-/

namespace Typecase

/-- Labels with their values, in order of visit. -/
abbrev LabelMap (α : Type) := List (String × α)

namespace LabelMap

variable {α : Type}

/-- The value of a label. -/
def find? (m : LabelMap α) (label : String) : Option α := m.lookup label

/-- Whether a label has a value. -/
def has (m : LabelMap α) (label : String) : Bool := (find? m label).isSome

/-- The labels in order of visit. -/
def labels (m : LabelMap α) : List String := m.map (·.1)

/-- Number of different labels. -/
def size (m : LabelMap α) : Nat := (labels m).eraseDups.length

/-- Give `label` the value `a`.  A new label comes last; a present one keeps its
place. -/
def set (m : LabelMap α) (label : String) (a : α) : LabelMap α :=
  if has m label then m.map (fun e => if e.1 == label then (label, a) else e)
  else m ++ [(label, a)]

/-- Take `label` away. -/
def erase (m : LabelMap α) (label : String) : LabelMap α := m.filter (fun e => e.1 != label)

/-- Set the labels of `later` as well. -/
def extend (m later : LabelMap α) : LabelMap α :=
  later.foldl (fun acc e => set acc e.1 e.2) m

/-- The map that results from setting the given labels one after the other. -/
def ofList (entries : List (String × α)) : LabelMap α := extend [] entries

/-- The entries with labels that `other` does not have. -/
def without (m other : LabelMap α) : LabelMap α := m.filter (fun e => !has other e.1)

/-- A map under construction. -/
structure Builder (α : Type) where
  present : LabelMap α := []
  /-- Every insertion that made a label present, oldest first. -/
  insertions : List String := []
  deriving Repr, Inhabited

namespace Builder

/-- A builder that starts from the entries of `m`. -/
def ofMap (m : LabelMap α) : Builder α := ⟨ofList m, (ofList m).labels⟩

def size (b : Builder α) : Nat := LabelMap.size b.present

def find? (b : Builder α) (label : String) : Option α := LabelMap.find? b.present label

/-- Give `label` the value `a`. -/
def set (b : Builder α) (label : String) (a : α) : Builder α where
  present := LabelMap.set b.present label a
  insertions := if has b.present label then b.insertions else b.insertions ++ [label]

/-- Take `label` away. -/
def erase (b : Builder α) (label : String) : Builder α :=
  { b with present := LabelMap.erase b.present label }

/-- The finished map: every insertion of a label that is still present, with the
label's value. -/
def build (b : Builder α) : LabelMap α :=
  b.insertions.filterMap fun label => (b.find? label).map fun a => (label, a)

end Builder

end LabelMap

end Typecase
