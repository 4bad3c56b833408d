import Typecase.Source.Basic
set_option autoImplicit false

/-!
# Printing programs

Source trees as program text on one line.  With `operand`, a compound form is put in
parentheses.
-/

namespace Typecase.Source

def parens (needed : Bool) (text : String) : String :=
  if needed then "(" ++ text ++ ")" else text

def braces (text : String) : String := "\x7b" ++ text ++ "\x7d"

/-! ## Type expressions -/

namespace TypeExpr

mutual

/-- The text of a type expression.  Function types are put in parentheses from strength
1 on, tuple types from strength 2 on. -/
def renderAt (strength : Nat) : TypeExpr → String
  | .var _ name => name
  | .con _ name args =>
    match renderList (if args.length = 1 then 2 else 0) args with
    | [] => name
    | [arg] => arg ++ " " ++ name
    | texts => "(" ++ ", ".intercalate texts ++ ") " ++ name
  | .arrow _ a r => parens (strength > 0) (renderAt 1 a ++ " -> " ++ renderAt 0 r)
  | .tuple _ ts => parens (strength > 1) (" * ".intercalate (renderList 2 ts))
  | .record _ fs => braces (", ".intercalate (renderFields fs))

/-- The texts of type expressions. -/
def renderList (strength : Nat) : List TypeExpr → List String
  | [] => []
  | t :: ts => renderAt strength t :: renderList strength ts

def renderFields : List (String × TypeExpr) → List String
  | [] => []
  | (l, t) :: fs => (l ++ ": " ++ renderAt 0 t) :: renderFields fs

end

/-- The text of a type expression. -/
def render (t : TypeExpr) : String := renderAt 0 t

end TypeExpr

/-! ## Patterns -/

namespace Pattern

def isVar (x : String) : Pattern → Bool
  | .var _ y => x == y
  | _ => false

mutual

def renderAt (operand : Bool) : Pattern → String
  | .wildcard _ => "_"
  | .var _ x => x
  | .literal _ l => l.render
  | .con _ name none => name
  | .con _ name (some arg) =>
    parens operand <|
      match if name = "::" then renderCons arg else none with
      | some text => text
      | none => name ++ " " ++ renderAt true arg
  | .tuple _ ps => "(" ++ ", ".intercalate (renderList ps) ++ ")"
  | .record _ fs flexible =>
    braces (", ".intercalate (renderFields fs ++ if flexible then ["..."] else []))
  | .layered _ x p => parens operand (x ++ " as " ++ renderAt false p)
  | .list _ ps => "[" ++ ", ".intercalate (renderList ps) ++ "]"
  | .annot _ p t => "(" ++ renderAt false p ++ " : " ++ t.render ++ ")"

/-- A list cell, if its value is written as a pair. -/
def renderCons : Pattern → Option String
  | .tuple _ [x, y] => some (renderAt true x ++ " :: " ++ renderAt false y)
  | _ => none

def renderList : List Pattern → List String
  | [] => []
  | p :: ps => renderAt false p :: renderList ps

/-- The texts of the fields of a record pattern.  A field bound to the variable of the
same name is written as that name alone. -/
def renderFields : List (String × Pattern) → List String
  | [] => []
  | (l, p) :: fs =>
    (if p.isVar l then l else l ++ " = " ++ renderAt false p) :: renderFields fs

end

def render (p : Pattern) : String := renderAt false p

end Pattern

/-! ## Expressions and declarations -/

/-- The parameters of a type declaration, with a blank behind them. -/
def renderParams : List String → String
  | [] => ""
  | [p] => p ++ " "
  | ps => "(" ++ ", ".intercalate ps ++ ") "

/-- A constructor with the type of its value. -/
def ConBinding.render (c : ConBinding) : String :=
  match c.arg with
  | none => c.name
  | some t => c.name ++ " of " ++ t.render

def DatatypeBinding.render (b : DatatypeBinding) : String :=
  renderParams b.params ++ b.name ++ " = " ++
    " | ".intercalate (b.constructors.map ConBinding.render)

mutual

/-- The text of an expression. -/
def Expr.renderAt (operand : Bool) : Expr → String
  | .literal _ l => l.render
  | .var _ x => x
  | .app _ f a => parens operand (f.renderAt (!f.isApp) ++ " " ++ a.renderAt true)
  | .fn _ rs => parens operand ("fn " ++ " | ".intercalate (renderRules rs))
  | .case _ e rs =>
    parens operand ("case " ++ e.renderAt false ++ " of " ++ " | ".intercalate (renderRules rs))
  | .letIn _ ds e =>
    "let " ++ "; ".intercalate (renderDecls ds) ++ " in " ++ e.renderAt false ++ " end"
  | .tuple _ es => "(" ++ ", ".intercalate (renderExprs es) ++ ")"
  | .record _ fs => braces (", ".intercalate (renderFields fs))
  | .selector _ l => "#" ++ l
  | .list _ es => "[" ++ ", ".intercalate (renderExprs es) ++ "]"
  | .seq _ es => "(" ++ "; ".intercalate (renderExprs es) ++ ")"
  | .cond _ c a b =>
    parens operand
      ("if " ++ c.renderAt false ++ " then " ++ a.renderAt false ++ " else " ++ b.renderAt false)
  | .andalso _ a b => parens operand (a.renderAt true ++ " andalso " ++ b.renderAt true)
  | .orelse _ a b => parens operand (a.renderAt true ++ " orelse " ++ b.renderAt true)
  | .raise _ e => parens operand ("raise " ++ e.renderAt true)
  | .handle _ e rs =>
    parens operand (e.renderAt true ++ " handle " ++ " | ".intercalate (renderRules rs))
  | .annot _ e t => "(" ++ e.renderAt false ++ " : " ++ t.render ++ ")"

/-- The texts of expressions. -/
def renderExprs : List Expr → List String
  | [] => []
  | e :: es => e.renderAt false :: renderExprs es

/-- The texts of the fields of a record. -/
def renderFields : List (String × Expr) → List String
  | [] => []
  | (l, e) :: fs => (l ++ " = " ++ e.renderAt false) :: renderFields fs

def renderRules : List Rule → List String
  | [] => []
  | ⟨_, p, none, e⟩ :: rs => (p.render ++ " => " ++ e.renderAt false) :: renderRules rs
  | ⟨_, p, some g, e⟩ :: rs =>
    (p.render ++ " if " ++ g.renderAt true ++ " => " ++ e.renderAt false) :: renderRules rs

/-- The text of a declaration. -/
def Decl.render : Decl → String
  | .val _ recursive p e =>
    "val " ++ (if recursive then "rec " else "") ++ p.render ++ " = " ++ e.renderAt false
  | .functions _ bs => "fun " ++ " and ".intercalate (renderBindings bs)
  | .datatypes _ bs => "datatype " ++ " and ".intercalate (bs.map DatatypeBinding.render)
  | .abbreviation _ params name t => "type " ++ renderParams params ++ name ++ " = " ++ t.render
  | .exceptions _ bs => "exception " ++ " and ".intercalate (bs.map ConBinding.render)
  | .localIn _ ds body =>
    "local " ++ "; ".intercalate (renderDecls ds) ++ " in " ++
      "; ".intercalate (renderDecls body) ++ " end"

/-- The texts of declarations. -/
def renderDecls : List Decl → List String
  | [] => []
  | d :: ds => d.render :: renderDecls ds

/-- The texts of functions. -/
def renderBindings : List FunBinding → List String
  | [] => []
  | ⟨_, name, cs⟩ :: bs => " | ".intercalate (renderClauses name cs) :: renderBindings bs

/-- The texts of the clauses of a function. -/
def renderClauses (name : String) : List FunClause → List String
  | [] => []
  | ⟨_, params, result, e⟩ :: cs =>
    (name ++ String.join (params.map fun p => " " ++ p.renderAt true) ++
      (match result with
        | some t => " : " ++ t.render
        | none => "") ++ " = " ++ e.renderAt false) :: renderClauses name cs

end

/-- The text of an expression. -/
def Expr.render (e : Expr) : String := e.renderAt false

end Typecase.Source
