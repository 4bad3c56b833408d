import Typecase.Source.Basic
set_option autoImplicit false

/-!
# Nested declarations

The declarations of a program, however deep they stand in other declarations and in
expressions.
-/

namespace Typecase.Source

mutual

/-- The declarations inside an expression. -/
def Expr.decls : Expr → List Decl
  | .literal _ _ | .var _ _ | .selector _ _ => []
  | .app _ f a => f.decls ++ a.decls
  | .fn _ rs => rulesDecls rs
  | .case _ e rs => e.decls ++ rulesDecls rs
  | .letIn _ ds e => declsDecls ds ++ e.decls
  | .tuple _ es | .list _ es | .seq _ es => exprsDecls es
  | .record _ fs => fieldsDecls fs
  | .cond _ c a b => c.decls ++ (a.decls ++ b.decls)
  | .andalso _ a b | .orelse _ a b => a.decls ++ b.decls
  | .raise _ e | .annot _ e _ => e.decls
  | .handle _ e rs => e.decls ++ rulesDecls rs

/-- The declarations inside expressions. -/
def exprsDecls : List Expr → List Decl
  | [] => []
  | e :: es => e.decls ++ exprsDecls es

/-- The declarations inside labelled expressions. -/
def fieldsDecls : List (String × Expr) → List Decl
  | [] => []
  | (_, e) :: fs => e.decls ++ fieldsDecls fs

/-- The declarations inside the guards and bodies of rules. -/
def rulesDecls : List Rule → List Decl
  | [] => []
  | ⟨_, _, none, e⟩ :: rs => e.decls ++ rulesDecls rs
  | ⟨_, _, some g, e⟩ :: rs => g.decls ++ (e.decls ++ rulesDecls rs)

/-- A declaration and those inside it. -/
def Decl.decls : Decl → List Decl
  | .val pos r p e => .val pos r p e :: e.decls
  | .functions pos bs => .functions pos bs :: bindingsDecls bs
  | .datatypes pos bs => [.datatypes pos bs]
  | .abbreviation pos ps x t => [.abbreviation pos ps x t]
  | .exceptions pos bs => [.exceptions pos bs]
  | .localIn pos ds body => .localIn pos ds body :: (declsDecls ds ++ declsDecls body)

/-- Declarations and those inside them. -/
def declsDecls : List Decl → List Decl
  | [] => []
  | d :: ds => d.decls ++ declsDecls ds

/-- The declarations inside functions. -/
def bindingsDecls : List FunBinding → List Decl
  | [] => []
  | ⟨_, _, cs⟩ :: bs => clausesDecls cs ++ bindingsDecls bs

/-- The declarations inside clauses. -/
def clausesDecls : List FunClause → List Decl
  | [] => []
  | ⟨_, _, _, e⟩ :: cs => e.decls ++ clausesDecls cs

end

/-- The datatypes that a declaration declares itself. -/
def Decl.datatypeNames : Decl → List String
  | .datatypes _ bs => bs.map (·.name)
  | _ => []

/-- The datatypes that the declarations `ds` declare themselves. -/
def datatypeNames (ds : List Decl) : List String := ds.flatMap Decl.datatypeNames

@[simp] theorem datatypeNames_append (ds ds' : List Decl) :
    datatypeNames (ds ++ ds') = datatypeNames ds ++ datatypeNames ds' :=
  List.flatMap_append

@[simp] theorem datatypeNames_cons (d : Decl) (ds : List Decl) :
    datatypeNames (d :: ds) = d.datatypeNames ++ datatypeNames ds :=
  List.flatMap_cons

@[simp] theorem datatypeNames_nil : datatypeNames [] = [] := rfl

theorem bindingsDecls_eq_flatMap (bs : List FunBinding) :
    bindingsDecls bs = bs.flatMap fun b => clausesDecls b.clauses := by
  induction bs with
  | nil => rfl
  | cons b bs ih =>
    obtain ⟨_, _, _⟩ := b
    rw [bindingsDecls, List.flatMap_cons, ih]

end Typecase.Source
