import Typecase.Diagnostic
import Typecase.Match.Compile
import Typecase.Types.Unify
set_option autoImplicit false

/-!
# Problems with programs

Everything that elaboration has to say against a program, with the kind and the wording
of the diagnostic that it becomes.
-/

namespace Typecase

/-- What is wrong with a program. -/
inductive Problem where
  | unboundIdentifier (name : String)
  | unboundConstructor (name : String)
  /-- A type variable is not a parameter of the type being declared. -/
  | unboundTypeVariable (name : String)
  | unboundTypeConstructor (name : String)
  /-- A type constructor is given the wrong number of arguments. -/
  | typeArguments (name : String) (expected found : Nat)
  /-- Types cannot be unified.  The wording is that of the time when it was tried.  There
  is no kind of mismatch if the types are malformed.  A hint is added if a curried
  function is applied to a tuple. -/
  | unification (kind : Option Mismatch) (text : String) (curried : Bool)
  | repeatedField (label : String)
  | repeatedTypeField (label : String)
  | repeatedPatternField (label : String)
  | repeatedVariable (name : String)
  | realPattern
  | missingArgument (con : String)
  /-- A constructor that carries no value has an argument in a pattern. -/
  | unexpectedArgument (con : String)
  | layeredConstructor (name : String)
  | recursiveVariable
  /-- A recursive value is something other than a function. -/
  | recursiveFunction
  /-- A function is bound twice in a group. -/
  | repeatedFunction (name : String)
  | functionConstructor (name : String)
  | noParameters (name : String)
  /-- The clauses of a function have different numbers of parameters. -/
  | clauseParameters (name : String)
  | repeatedType (name : String)
  /-- A constructor is declared twice in a declaration. -/
  | repeatedConstructor (name : String)
  | repeatedTypeParameter (name : String)
  /-- A quantified variable is free in the environment. -/
  | escape (text : String)
  /-- Clauses cannot be compiled. -/
  | clauses (fault : Match.Fault)
  /-- A match or a binding leaves out some values. -/
  | nonExhaustive (isBinding : Bool) (missing : List String)
  /-- A clause is never selected. -/
  | redundant (clause : Nat)
  deriving DecidableEq, Repr, Inhabited

namespace Problem

/-- The kind of diagnostic for a failed unification. -/
def mismatchKind : Option Mismatch → DiagnosticKind
  | none => .internal
  | some .type => .typeMismatch
  | some .constructor => .constructorMismatch
  | some .arity => .arityMismatch
  | some .infinite => .infiniteType

/-- The kind of diagnostic for a problem. -/
def kind : Problem → DiagnosticKind
  | .unboundIdentifier _ | .unboundConstructor _ => .unboundIdentifier
  | .unboundTypeVariable _ | .unboundTypeConstructor _ => .unboundType
  | .typeArguments _ _ _ | .clauseParameters _ => .arityMismatch
  | .unification k _ _ => mismatchKind k
  | .repeatedField _ | .repeatedTypeField _ => .typeMismatch
  | .repeatedPatternField _ | .repeatedVariable _ | .realPattern | .missingArgument _
  | .unexpectedArgument _ | .layeredConstructor _ | .recursiveVariable | .recursiveFunction
  | .repeatedFunction _ | .functionConstructor _ | .noParameters _ | .repeatedType _
  | .repeatedConstructor _ | .repeatedTypeParameter _ => .invalidPattern
  | .escape _ | .clauses _ => .internal
  | .nonExhaustive _ _ => .nonExhaustiveMatch
  | .redundant _ => .redundantClause

/-- The wording of a problem. -/
def message : Problem → String
  | .unboundIdentifier x => "Unbound identifier " ++ x
  | .unboundConstructor c => "Unbound constructor " ++ c
  | .unboundTypeVariable a => "Unbound type-variable " ++ a
  | .unboundTypeConstructor t => "Unbound type constructor " ++ t
  | .typeArguments t expected found =>
    "Type constructor " ++ t ++ " expects " ++ toString expected ++ " argument(s), found " ++
      toString found
  | .unification _ text curried =>
    if curried then
      text ++ "; the function is curried, so its arguments must be applied separately"
    else text
  | .repeatedField l => "Duplicate label " ++ l ++ " in record"
  | .repeatedTypeField l => "Duplicate label " ++ l ++ " in record type"
  | .repeatedPatternField l => "Duplicate label " ++ l ++ " in record pattern"
  | .repeatedVariable x => "Variable " ++ x ++ " is bound more than once in a pattern"
  | .realPattern => "Real constants cannot be matched"
  | .missingArgument c => "Constructor " ++ c ++ " requires an argument"
  | .unexpectedArgument c => "Constructor " ++ c ++ " does not take an argument"
  | .layeredConstructor c => "Constructor " ++ c ++ " cannot be bound by a layered pattern"
  | .recursiveVariable => "Recursive value bindings must bind a variable"
  | .recursiveFunction => "Recursive value bindings must bind a function"
  | .repeatedFunction f => "Function " ++ f ++ " is bound more than once"
  | .functionConstructor f => "Constructor " ++ f ++ " cannot be bound as a function"
  | .noParameters f => "Function " ++ f ++ " has no parameters"
  | .clauseParameters f => "Clauses of " ++ f ++ " have different numbers of parameters"
  | .repeatedType t => "Type " ++ t ++ " is declared more than once"
  | .repeatedConstructor c => "Constructor " ++ c ++ " is declared more than once"
  | .repeatedTypeParameter a => "Duplicate type parameter " ++ a
  | .escape text => text
  | .clauses fault => fault.message
  | .nonExhaustive isBinding missing =>
    (if isBinding then "Non-exhaustive binding" else "Non-exhaustive match") ++
      (if missing.isEmpty then "" else "; missing: " ++ ", ".intercalate missing)
  | .redundant i => "Redundant clause " ++ toString (i + 1) ++ " can never be selected"

/-- The diagnostic for a problem at a position. -/
def diagnostic (p : Problem) (severity : Severity) (pos : Pos) : Diagnostic :=
  ⟨p.kind, severity, pos, p.message⟩

/-- The problem with a failed unification. -/
def ofUnifyError (s : Store) (e : UnifyError) (curried : Bool) : Problem :=
  match e with
  | .mismatch kind _ _ _ => .unification (some kind) (e.message s) curried
  | _ => .unification none (e.message s) curried

end Problem

end Typecase
