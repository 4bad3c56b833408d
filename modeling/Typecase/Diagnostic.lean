import Typecase.Lexical
set_option autoImplicit false

/-!
# Diagnostics

A diagnostic is an error or a warning about a place in a program.  Only errors make a
run fail.  Diagnostics are listed by position, and those at one position stay in the
order in which they arose.
-/

namespace Typecase

/-- What a diagnostic is about. -/
inductive DiagnosticKind where
  /-- An inconsistency of the elaborator itself. -/
  | internal
  | unboundIdentifier
  /-- A type constructor or type variable that is not in scope. -/
  | unboundType
  | typeMismatch
  | constructorMismatch
  /-- Different numbers of components, arguments or parameters. -/
  | arityMismatch
  /-- A type that would contain itself. -/
  | infiniteType
  /-- A match that leaves out some values. -/
  | nonExhaustiveMatch
  /-- A clause that is never selected. -/
  | redundantClause
  /-- A pattern or binding that is not allowed. -/
  | invalidPattern
  /-- A kind outside the list, known by its number. -/
  | unlisted (number : Int)
  deriving DecidableEq, Repr, Inhabited

namespace DiagnosticKind

/-- The kinds by number. -/
def listed : List DiagnosticKind := [
  .internal, .unboundIdentifier, .unboundType, .typeMismatch, .constructorMismatch,
  .arityMismatch, .infiniteType, .nonExhaustiveMatch, .redundantClause, .invalidPattern]

/-- The kind with the given number. -/
def ofNumber (n : Int) : DiagnosticKind :=
  if n < 0 then .unlisted n else (listed[n.toNat]?).getD (.unlisted n)

/-- The name of a kind. -/
def name : DiagnosticKind → String
  | .internal => "Internal"
  | .unboundIdentifier => "UnboundIdentifier"
  | .unboundType => "UnboundType"
  | .typeMismatch => "TypeMismatch"
  | .constructorMismatch => "ConstructorMismatch"
  | .arityMismatch => "ArityMismatch"
  | .infiniteType => "InfiniteType"
  | .nonExhaustiveMatch => "NonExhaustiveMatch"
  | .redundantClause => "RedundantClause"
  | .invalidPattern => "InvalidPattern"
  | .unlisted n => "Kind(" ++ toString n ++ ")"

end DiagnosticKind

/-- How severe a diagnostic is. -/
inductive Severity where
  | error
  | warning
  /-- Neither; it reads like an error but is not counted as one. -/
  | unlisted (number : Int)
  deriving DecidableEq, Repr, Inhabited

namespace Severity

/-- The severity with the given number. -/
def ofNumber (n : Int) : Severity :=
  if n = 0 then .error else if n = 1 then .warning else .unlisted n

/-- The word for a severity. -/
def word : Severity → String
  | .warning => "warning"
  | _ => "error"

end Severity

/-- An error or warning at a position. -/
structure Diagnostic where
  kind : DiagnosticKind
  severity : Severity
  pos : Pos
  message : String
  deriving DecidableEq, Repr, Inhabited

namespace Diagnostic

/-- Whether a diagnostic is an error. -/
def isError (d : Diagnostic) : Bool := d.severity = .error

/-- What follows the severity in the text of a diagnostic. -/
def body (d : Diagnostic) : String := " [" ++ d.kind.name ++ "]: " ++ d.message

/-- A diagnostic on one line.  An unknown position is left out. -/
def render (d : Diagnostic) : String :=
  (if d.pos.line > 0 then d.pos.render ++ ": " else "") ++ d.severity.word ++ d.body

/-- Whether a diagnostic may stand before another. -/
def precedes (a b : Diagnostic) : Bool :=
  a.pos.line < b.pos.line || (a.pos.line = b.pos.line && a.pos.col ≤ b.pos.col)

/-- Diagnostics in order of position. -/
def sort (ds : List Diagnostic) : List Diagnostic := ds.mergeSort precedes

/-- The errors among diagnostics. -/
def errors (ds : List Diagnostic) : List Diagnostic := ds.filter isError

/-- Several diagnostics on one line: the first, and how many follow. -/
def renderAll : List Diagnostic → String
  | [] => "no diagnostics"
  | [d] => d.render
  | d :: ds => d.render ++ " (and " ++ toString ds.length ++ " more)"

/-- The text of the errors among diagnostics, if there are any. -/
def failure? (ds : List Diagnostic) : Option String :=
  let es := errors ds
  if es.isEmpty then none else some (renderAll es)

end Diagnostic

end Typecase
