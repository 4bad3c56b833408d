import Typecase.Types.Store
set_option autoImplicit false

/-!
# Rows

A row is flattened into its labels and its end.  Labels of outer extensions come
before labels of inner ones; when a label is repeated the inner type counts, at the
place of the outer label.
-/

namespace Typecase

/-- What a row ends in. -/
inductive RowEnd where
  /-- In the empty row: the record has exactly the given fields. -/
  | rigid
  /-- In a variable: the record may gain fields. -/
  | flexible (v : Var)
  deriving DecidableEq, Repr, Inhabited

namespace RowEnd

/-- The end of a row as a type. -/
def toTy : RowEnd → Ty
  | .rigid => .rowEmpty
  | .flexible v => .var v

end RowEnd

namespace Store

/-- Add the labels of a row to `acc`.  `follow` goes on behind a link. -/
def flattenWith (s : Store) (follow : LabelMap Ty → Ty → Option (LabelMap Ty × RowEnd)) :
    LabelMap Ty → Ty → Option (LabelMap Ty × RowEnd)
  | acc, .rowExtend _ labels row => flattenWith s follow (acc.extend labels) row
  | acc, .var v =>
    match s.state v with
    | .linked t => follow acc t
    | _ => some (acc, .flexible v)
  | acc, .rowEmpty => some (acc, .rigid)
  | _, _ => none

/-- Add the labels of a row to `acc`, following at most `n` links. -/
def flattenAt (s : Store) : Nat → LabelMap Ty → Ty → Option (LabelMap Ty × RowEnd)
  | 0 => s.flattenWith fun _ _ => none
  | n + 1 => s.flattenWith (flattenAt s n)

/-- The fields and the end of a row. -/
def flattenRow (s : Store) (t : Ty) : Option (LabelMap Ty × RowEnd) := s.flattenAt s.size [] t

end Store

end Typecase
