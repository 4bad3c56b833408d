import Typecase.Diagnostic
import Typecase.Types.Scheme
set_option autoImplicit false

/-!
# Reports

What a run prints: a line per diagnostic, a line per binding, and a summary.
-/

namespace Typecase

/-- When diagnostics are coloured. -/
inductive ColorMode where
  /-- If the output is a terminal. -/
  | auto
  | always
  | never
  deriving DecidableEq, Repr, Inhabited

namespace ColorMode

def ofName? : String → Option ColorMode
  | "auto" => some .auto
  | "always" => some .always
  | "never" => some .never
  | _ => none

/-- Whether output is coloured that does not go to a terminal. -/
def isColored (mode : ColorMode) : Bool := mode = .always

end ColorMode

namespace Report

/-- The word for a severity, in bold red or yellow if coloured. -/
def severity (colored : Bool) (s : Severity) : String :=
  if colored then
    "\x1b[1m" ++ (if s = .error then "\x1b[31m" else "\x1b[33m") ++ s.word ++ "\x1b[0m"
  else s.word

/-- A diagnostic on a line of its own.  The name of the file is left out if empty. -/
def diagnosticLine (colored : Bool) (file : String) (d : Diagnostic) : String :=
  let place := if d.pos.line > 0 then d.pos.render ++ ": " else if file = "" then "" else " "
  (if file = "" then "" else file ++ ":") ++ place ++ severity colored d.severity ++ d.body ++ "\n"

def diagnostics (colored : Bool) (file : String) (ds : List Diagnostic) : String :=
  String.join (ds.map (diagnosticLine colored file))

/-- A number of things. -/
def count (n : Nat) (noun : String) : String :=
  toString n ++ " " ++ noun ++ (if n = 1 then "" else "s")

/-- How many errors and warnings there are, unless there are none at all. -/
def summary (ds : List Diagnostic) : String :=
  let errors := (Diagnostic.errors ds).length
  if ds.isEmpty then ""
  else count errors "error" ++ ", " ++ count (ds.length - errors) "warning" ++ "\n"

def bindingLine (s : Store) (b : String × Scheme) : String :=
  "val " ++ b.1 ++ ": " ++ s.showScheme b.2 ++ "\n"

def bindings (s : Store) (bs : List (String × Scheme)) : String :=
  String.join (bs.map (bindingLine s))

end Report

end Typecase
