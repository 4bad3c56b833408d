import Typecase.Dependency
import Typecase.Elaborate.Clauses
import Typecase.Elaborate.Pattern
set_option autoImplicit false

/-!
# Elaborating expressions and declarations

Expressions are elaborated at a level; a declaration at level `n` elaborates what it binds
at level `n + 1` and then quantifies every type variable that is still deeper than `n`.

Conditionals and lists are expanded into case analyses and constructors.  Functions with
several rules match on a parameter with a made-up name; curried functions become nested
functions around a match on the tuple of all parameters.
-/

namespace Typecase.Elaborate

open Source

/-! ## Syntactic values -/

mutual

/-- Whether the evaluation of an expression allocates no reference cell, judged by its
form; then its type may be quantified. -/
def isValue (env : Env) : Expr → Bool
  | .literal _ _ | .var _ _ | .fn _ _ | .selector _ _ => true
  | .tuple _ es | .list _ es => areValues env es
  | .record _ fs => fieldsAreValues env fs
  | .annot _ e _ => isValue env e
  | .app _ (.var _ f) e => f != "ref" && env.isConstructor f && isValue env e
  | _ => false

/-- Whether all expressions are syntactic values. -/
def areValues (env : Env) : List Expr → Bool
  | [] => true
  | e :: es => isValue env e && areValues env es

/-- Elementwise `isValue`, over labelled expressions. -/
def fieldsAreValues (env : Env) : List (String × Expr) → Bool
  | [] => true
  | (_, e) :: fs => isValue env e && fieldsAreValues env fs

end

/-! ## Forms of expressions, given their parts -/

/-- A variable or constructor. -/
def identifier (env : Env) (level : Int) (pos : Pos) (name : String) : ElaborateM Typed.Expr := do
  match env.value? name with
  | none => fail pos (.unboundIdentifier name)
  | some entry =>
    let t ← instantiate level entry.scheme
    return .var ⟨pos, t⟩ name entry.con?

/-- The parameter and result type of a function type.  An unknown type becomes one. -/
def functionType (level : Int) (pos : Pos) (t : Ty) : ElaborateM (Ty × Ty) := do
  match (← getStore).head t with
  | .arrow _ a r => return (a, r)
  | _ =>
    let a ← freshType level
    let r ← freshType level
    unify pos (← liftStore (Ty.mkArrow a r)) t
    return (a, r)

/-- Whether a function that does not accept a tuple is curried and accepts the first
component of the tuple. -/
def isCurriedCall (param result : Ty) (arg : Typed.Expr) : ElaborateM Bool := do
  match arg, (← getStore).head result with
  | .tuple _ (e :: _ :: _), .arrow _ _ _ => liftStore (Store.canUnify param e.type)
  | _, _ => return false

/-- An application.  If it fails, the types are left as they were. -/
def application (level : Int) (pos funcPos argPos : Pos) (func arg : Typed.Expr) :
    ElaborateM Typed.Expr := do
  let (param, result) ← functionType level funcPos func.type
  match ← liftStore (Store.tryUnify param arg.type).run with
  | .ok () => return .app ⟨pos, result⟩ func arg
  | .error e =>
    let s ← getStore
    let curried ← isCurriedCall param result arg
    fail argPos (.ofUnifyError s e curried)

/-- A function that is given by its rules. -/
def function (pos : Pos) (param result : Ty) (rules : List Typed.Rule) :
    ElaborateM Typed.Expr := do
  let m ← compileRules .rules pos rules param
  let name ← freshParam
  let t ← liftStore (Ty.mkArrow param result)
  return .fn ⟨pos, t⟩ name (.case ⟨pos, result⟩ (.var ⟨pos, param⟩ name none) rules m)

/-- The elaboration of an expression that starts at a position. -/
structure Part where
  pos : Pos
  elaborate : ElaborateM Typed.Expr

/-- A conditional, as a case analysis of a truth value. -/
def conditional (env : Env) (pos : Pos) (test whenTrue whenFalse : Part) :
    ElaborateM Typed.Expr := do
  let (trueCon, _) ← constructor env pos "true"
  let (falseCon, _) ← constructor env pos "false"
  let c ← test.elaborate
  unify test.pos Ty.bool c.type
  let a ← whenTrue.elaborate
  let b ← whenFalse.elaborate
  unify whenFalse.pos a.type b.type
  let rules : List Typed.Rule := [
    ⟨.con ⟨whenTrue.pos, Ty.bool⟩ trueCon none, none, a⟩,
    ⟨.con ⟨whenFalse.pos, Ty.bool⟩ falseCon none, none, b⟩]
  let m ← compileRules .rules pos rules Ty.bool
  return .case ⟨pos, a.type⟩ c rules m

/-- The expression for a list of the given elements. -/
def listOf (pos : Pos) (nil cons : Con) (list pair func : Ty) : List Typed.Expr → Typed.Expr
  | [] => .var ⟨pos, list⟩ "nil" (some nil)
  | e :: es =>
    .app ⟨e.pos, list⟩ (.var ⟨e.pos, func⟩ "::" (some cons))
      (.tuple ⟨e.pos, pair⟩ [e, listOf pos nil cons list pair func es])

/-- Elaborate a list expression, given how to elaborate its elements. -/
def listExpr (env : Env) (level : Int) (pos : Pos)
    (elements : Ty → ElaborateM (List Typed.Expr)) : ElaborateM Typed.Expr := do
  let (nil, _) ← constructor env pos "nil"
  let (cons, _) ← constructor env pos "::"
  let elem ← freshType level
  let list ← liftStore (Ty.mkList elem)
  let es ← elements elem
  let pair ← liftStore (Ty.mkTuple [elem, list])
  let func ← liftStore (Ty.mkArrow pair list)
  return listOf pos nil cons list pair func es

/-- The function that selects a field. -/
def selector (level : Int) (pos : Pos) (label : String) : ElaborateM Typed.Expr := do
  let field ← freshType level
  let rest ← freshType level
  let record ← liftStore (Ty.mkRecord [(label, field)] rest)
  let t ← liftStore (Ty.mkArrow record field)
  return .selector ⟨pos, t⟩ label

/-! ## Forms of declarations, given their parts -/

/-- What a declaration comes to: a typed declaration, the environment after it, and the
bindings that it makes.  Abbreviations of types leave no typed declaration. -/
structure Elaborated where
  decl : Option Typed.Decl
  env : Env
  bindings : List Binding
  deriving Repr, Inhabited

/-- A value declaration, given its expression. -/
def valueDecl (env : Env) (level : Int) (pos : Pos) (pattern : Source.Pattern) (isValue : Bool)
    (expr : Typed.Expr) : ElaborateM Elaborated := do
  let (p, vars) ← (elaboratePattern env (level + 1) pattern).run []
  unify pattern.pos p.type expr.type
  let m ← compileMatch .binding pos [⟨p, false⟩] expr.type
  let bindings ← vars.mapM fun v => do
    return (⟨v.1, ← bindScheme env pos level v.2 isValue⟩ : Binding)
  traceBindings bindings
  let next := bindings.foldl (fun env b => env.bind b.name b.scheme) env
  return ⟨some (.val pos p expr m bindings), next, bindings⟩

/-- The variable that a recursive value is bound to, and its type annotation. -/
def recursiveName? (env : Env) : Source.Pattern → Option (String × Option TypeExpr)
  | .var _ x => if env.isConstructor x then none else some (x, none)
  | .annot _ (.var _ x) t => if env.isConstructor x then none else some (x, some t)
  | _ => none

/-- Whether an expression is a function in so many words. -/
def isFunction : Expr → Bool
  | .fn _ _ => true
  | _ => false

/-- A recursive value declaration, given the elaboration of its expression. -/
def recursiveDecl (env : Env) (level : Int) (pos : Pos) (pattern : Source.Pattern)
    (isFn : Bool) (exprPos : Pos) (expr : Env → ElaborateM Typed.Expr) :
    ElaborateM Elaborated := do
  match recursiveName? env pattern with
  | none => fail pattern.pos .recursiveVariable
  | some (name, annot) =>
    if !isFn then fail exprPos .recursiveFunction
    let t ← freshType (level + 1)
    if let some annot := annot then
      let expected ← elaborateType env (level + 1) none annot
      unify pattern.pos expected t
    let fn ← expr (env.bind name (.mono t))
    unify exprPos t fn.type
    let σ ← generalize env pos level t
    let bindings : List Binding := [⟨name, σ⟩]
    traceBindings bindings
    return ⟨some (.functions pos [⟨name, σ, fn⟩]), env.bind name σ, bindings⟩

/-- A function of a group, with the elaboration of its clauses. -/
structure Member where
  pos : Pos
  name : String
  elaborate : Env → Int → ElaborateM Typed.Expr

/-- Check the names of the functions of a group, after those in `earlier`. -/
def checkNames (env : Env) (earlier : List String) : List Member → ElaborateM Unit
  | [] => return ()
  | f :: fs => do
    if earlier.contains f.name then fail f.pos (.repeatedFunction f.name)
    if env.isConstructor f.name then fail f.pos (.functionConstructor f.name)
    checkNames env (f.name :: earlier) fs

/-- Elaborate the functions of a component, each with the type it has meanwhile. -/
def elaborateMembers (scope : Env) (level : Int) (component : List (Nat × Member × Ty)) :
    ElaborateM (List (Nat × Member × Ty × Typed.Expr)) :=
  component.mapM fun (i, f, t) => do
    let fn ← f.elaborate scope (level + 1)
    unify f.pos t fn.type
    return (i, f, t, fn)

/-- Quantify the types of the functions of a component, one after the other. -/
def generalizeMembers (level : Int) :
    Env → List (Nat × Member × Ty × Typed.Expr) → ElaborateM (Env × List (Nat × Typed.FunBinding))
  | env, [] => return (env, [])
  | env, (i, f, t, fn) :: rest => do
    let σ ← generalize env f.pos level t
    let (env, done) ← generalizeMembers level (env.bind f.name σ) rest
    return (env, (i, ⟨f.name, σ, fn⟩) :: done)

/-- Elaborate a component of a group: its functions have fixed types until all of them
are elaborated, and are then quantified. -/
def elaborateComponent (env : Env) (level : Int) (component : List (Nat × Member)) :
    ElaborateM (Env × List (Nat × Typed.FunBinding)) := do
  let typed ← component.mapM fun (i, f) => do return (i, f, ← freshType (level + 1))
  let scope := typed.foldl (fun env (_, f, t) => env.bind f.name (.mono t)) env
  generalizeMembers level env (← elaborateMembers scope level typed)

/-- Elaborate the parts of a function group one after the other. -/
def elaborateComponents (level : Int) (members : List Member) :
    Env → List (List Nat) → ElaborateM (Env × List (Nat × Typed.FunBinding))
  | env, [] => return (env, [])
  | env, c :: cs => do
    let component := c.filterMap fun i => (members[i]?).map fun f => (i, f)
    let (env, done) ← elaborateComponent env level component
    let (env, rest) ← elaborateComponents level members env cs
    return (env, done ++ rest)

/-- Elaborate a group of functions, part by part. -/
def functionsDecl (env : Env) (level : Int) (pos : Pos) (members : List Member)
    (components : List (List Nat)) : ElaborateM Elaborated := do
  checkNames env [] members
  trace "function group" [("pos", .text pos.render), ("functions", .number members.length),
    ("components", .number components.length)]
  let (env, done) ← elaborateComponents level members env components
  let functions := (List.range members.length).filterMap fun i => done.lookup i
  let bindings := functions.map fun f => (⟨f.name, f.scheme⟩ : Binding)
  traceBindings bindings
  return ⟨some (.functions pos functions), env, bindings⟩

/-- The parameters of a clause, matched against values of the given types. -/
def elaborateParams (env : Env) (level : Int) :
    List Source.Pattern → List Ty → PatternM (List (Pattern Note))
  | p :: ps, t :: ts => do
    let typed ← elaboratePattern env level p
    unify p.pos t typed.type
    let rest ← elaborateParams env level ps ts
    return typed :: rest
  | _, _ => return []

/-- Elaborate a clause of a function to a rule over its parameters. -/
def functionClause (env : Env) (level : Int) (name : String) (params : List Ty)
    (scrutinee result : Ty) (pos : Pos) (patterns : List Source.Pattern)
    (annot : Option TypeExpr) (bodyPos : Pos) (body : Env → ElaborateM Typed.Expr) :
    ElaborateM Typed.Rule := do
  if patterns.length ≠ params.length then fail pos (.clauseParameters name)
  let (ps, vars) ← (elaborateParams env level patterns params).run []
  if let some annot := annot then
    let expected ← elaborateType env level none annot
    unify pos expected result
  let e ← body (bindVars env.scope vars)
  unify bodyPos result e.type
  match ps with
  | [p] => return ⟨p, none, e⟩
  | ps => return ⟨.tuple ⟨pos, scrutinee⟩ ps, none, e⟩

/-- Nested functions around `body`. -/
def curried (pos : Pos) : List (String × Ty) → Typed.Expr → ElaborateM Typed.Expr
  | [], body => return body
  | (name, t) :: params, body => do
    let body ← curried pos params body
    return .fn ⟨pos, ← liftStore (Ty.mkArrow t body.type)⟩ name body

/-- A curried function of `arity` parameters, given the elaboration of its clauses. -/
def curriedFunction (level : Int) (pos : Pos) (name : String) (arity : Nat)
    (clauses : List Ty → Ty → Ty → ElaborateM (List Typed.Rule)) : ElaborateM Typed.Expr := do
  if arity = 0 then fail pos (.noParameters name)
  let params ← (List.replicate arity ()).mapM fun _ => freshType level
  let scrutinee ← liftStore (Ty.mkTuple params)
  let result ← freshType level
  let rules ← clauses params scrutinee result
  let m ← compileRules .rules pos rules scrutinee
  let named ← params.mapM fun t => do return (← freshParam, t)
  let args : List Typed.Expr := named.map fun (x, t) => .var ⟨pos, t⟩ x none
  let value := match args with
    | [e] => e
    | es => .tuple ⟨pos, scrutinee⟩ es
  curried pos named (.case ⟨pos, result⟩ value rules m)

/-- The datatypes of a declaration without their constructors, after those named in
`earlier`. -/
def declareDatatypes (earlier : List String) :
    List DatatypeBinding → ElaborateM (List (DatatypeBinding × LabelMap Var × Datatype))
  | [] => return []
  | b :: bs => do
    if earlier.contains b.name then fail b.pos (.repeatedType b.name)
    let params ← typeParams b.pos [] b.params
    let id := (← get).datatypes
    modify fun s => { s with datatypes := id + 1 }
    let rest ← declareDatatypes (b.name :: earlier) bs
    return (b, params, ⟨id, b.name, params.map (·.2), false, []⟩) :: rest

/-- The constructors of a datatype.  `seen` are the constructors of the declaration so
far. -/
def declareConstructors (env : Env) (level : Int) (params : LabelMap Var) :
    List String → Datatype → List ConBinding → ElaborateM (List String × Datatype)
  | seen, d, [] => return (seen, d)
  | seen, d, c :: cs => do
    if seen.contains c.name then fail c.pos (.repeatedConstructor c.name)
    let arg ← c.arg.mapM (elaborateType env level (some params))
    arg.forM fun t => discard (liftStore (Store.generalize 0 t))
    declareConstructors env level params (c.name :: seen) (d.add c.name arg) cs

/-- The datatypes of a declaration with their constructors. -/
def completeDatatypes (env : Env) (level : Int) :
    List String → List (DatatypeBinding × LabelMap Var × Datatype) → ElaborateM (List Datatype)
  | _, [] => return []
  | seen, (b, params, d) :: rest => do
    let (seen, d) ← declareConstructors env level params seen d b.constructors
    let ds ← completeDatatypes env level seen rest
    return d :: ds

/-- Bind a datatype under its name. -/
def bindDatatype (env : Env) (d : Datatype) : Env := env.bindType d.name ⟨d.name, .datatype d⟩

/-- Bind the constructors of a datatype. -/
def bindConstructors (env : Env) (d : Datatype) : Env :=
  d.constructors.foldl (fun env c =>
    env.bindValue c.name ⟨d.scheme c, .constructor (d.con c false)⟩) env

/-- A declaration of datatypes, which may refer to each other. -/
def datatypesDecl (env : Env) (level : Int) (pos : Pos) (bindings : List DatatypeBinding) :
    ElaborateM Elaborated := do
  let drafts ← declareDatatypes [] bindings
  let named := (drafts.map (·.2.2)).foldl bindDatatype env
  let ds ← completeDatatypes named level [] drafts
  ds.forM fun d => trace "datatype" [("name", .text d.name), ("params", .number d.params.length),
    ("constructors", .number d.constructors.length)]
  return ⟨some (.datatypes pos ds), ds.foldl bindConstructors (ds.foldl bindDatatype env), []⟩

/-- Elaborate a type abbreviation. -/
def abbreviationDecl (env : Env) (level : Int) (pos : Pos) (params : List String)
    (name : String) (type : TypeExpr) : ElaborateM Elaborated := do
  let params ← typeParams pos [] params
  let body ← elaborateType env level (some params) type
  discard (liftStore (Store.generalize 0 body))
  return ⟨none, env.bindType name ⟨name, .abbreviation (params.map (·.2)) body⟩, []⟩

/-- Declare exceptions one after the other. -/
def declareExceptions (exn : Datatype) (level : Int) :
    Env → List ConBinding → ElaborateM (Env × List (Con × Scheme))
  | env, [] => return (env, [])
  | env, c :: cs => do
    let arg ← c.arg.mapM (elaborateType env level (some []))
    modify fun s => { s with exceptions := s.exceptions + 1 }
    let made : Constructor := ⟨c.name, (← get).exceptions, arg⟩
    let con := exn.con made true
    let σ := exn.scheme made
    let (env, rest) ← declareExceptions exn level (env.bindValue c.name ⟨σ, .exception con⟩) cs
    return (env, (con, σ) :: rest)

/-- Elaborate a declaration of exceptions. -/
def exceptionsDecl (env : Env) (level : Int) (pos : Pos) (bindings : List ConBinding) :
    ElaborateM Elaborated := do
  match (env.type? "exn").bind TypeEntry.datatype? with
  | none => fail pos (.unboundTypeConstructor "exn")
  | some exn =>
    let (env, constructors) ← declareExceptions exn level env bindings
    return ⟨some (.exceptions pos constructors), env, []⟩

/-! ## All expressions and declarations -/

mutual

/-- Elaborate an expression. -/
def elaborateExpr (env : Env) (level : Int) : Expr → ElaborateM Typed.Expr
  | .literal pos lit => return .literal ⟨pos, literalType lit.kind⟩ lit
  | .var pos name => identifier env level pos name
  | .app pos func arg => do
    let f ← elaborateExpr env level func
    let e ← elaborateExpr env level arg
    application level pos func.pos arg.pos f e
  | .fn pos rules => do
    let param ← freshType level
    let result ← freshType level
    let rules ← elaborateRules env level param result rules
    function pos param result rules
  | .case pos scrutinee rules => do
    let e ← elaborateExpr env level scrutinee
    let result ← freshType level
    let rules ← elaborateRules env level e.type result rules
    let m ← compileRules .rules pos rules e.type
    return .case ⟨pos, result⟩ e rules m
  | .letIn pos decls body => do
    let ds ← elaborateDecls env.scope level decls
    let e ← elaborateExpr ds.2.1 level body
    return .letIn ⟨pos, e.type⟩ ds.1 e
  | .tuple pos elems => do
    match ← elaborateExprs env level elems with
    | [e] => return e
    | es => return .tuple ⟨pos, ← liftStore (Ty.mkTuple (es.map Typed.Expr.type))⟩ es
  | .record pos fields => do
    let fields ← elaborateFields env level pos [] fields
    let t ← liftStore (Ty.mkRecord (fields.map fun f => (f.1, f.2.type)) .rowEmpty)
    return .record ⟨pos, t⟩ fields
  | .selector pos label => selector level pos label
  | .list pos elems => listExpr env level pos fun elem => elaborateListElements env level elem elems
  | .seq pos exprs => do
    let es ← elaborateExprs env level exprs
    match es.getLast? with
    | none => return .tuple ⟨pos, Ty.unit⟩ []
    | some e => return .seq ⟨pos, e.type⟩ es
  | .cond pos test whenTrue whenFalse =>
    conditional env pos ⟨test.pos, elaborateExpr env level test⟩
      ⟨whenTrue.pos, elaborateExpr env level whenTrue⟩
      ⟨whenFalse.pos, elaborateExpr env level whenFalse⟩
  | .andalso pos left right =>
    conditional env pos ⟨left.pos, elaborateExpr env level left⟩
      ⟨right.pos, elaborateExpr env level right⟩ ⟨pos, identifier env level pos "false"⟩
  | .orelse pos left right =>
    conditional env pos ⟨left.pos, elaborateExpr env level left⟩
      ⟨pos, identifier env level pos "true"⟩ ⟨right.pos, elaborateExpr env level right⟩
  | .raise pos expr => do
    let e ← elaborateExpr env level expr
    unify expr.pos Ty.exn e.type
    return .raise ⟨pos, ← freshType level⟩ e
  | .handle pos expr rules => do
    let e ← elaborateExpr env level expr
    let rules ← elaborateRules env level Ty.exn e.type rules
    let m ← compileRules .handler pos rules Ty.exn
    return .handle ⟨pos, e.type⟩ e rules m
  | .annot pos expr type => do
    let e ← elaborateExpr env level expr
    let t ← elaborateType env level none type
    unify pos t e.type
    return e

/-- Elaborate expressions from left to right. -/
def elaborateExprs (env : Env) (level : Int) : List Expr → ElaborateM (List Typed.Expr)
  | [] => return []
  | e :: es => do
    let e ← elaborateExpr env level e
    let es ← elaborateExprs env level es
    return e :: es

/-- Elaborate expressions for elements of one type. -/
def elaborateListElements (env : Env) (level : Int) (elem : Ty) :
    List Expr → ElaborateM (List Typed.Expr)
  | [] => return []
  | e :: es => do
    let typed ← elaborateExpr env level e
    unify e.pos elem typed.type
    let rest ← elaborateListElements env level elem es
    return typed :: rest

/-- Elaborate the fields of a record, after those in `done`. -/
def elaborateFields (env : Env) (level : Int) (pos : Pos) (done : List (String × Typed.Expr)) :
    List (String × Expr) → ElaborateM (List (String × Typed.Expr))
  | [] => return done
  | (label, e) :: fields => do
    if LabelMap.has done label then fail pos (.repeatedField label)
    let e ← elaborateExpr env level e
    elaborateFields env level pos (done ++ [(label, e)]) fields

/-- Elaborate rules from an argument type to a result type. -/
def elaborateRules (env : Env) (level : Int) (arg result : Ty) :
    List Rule → ElaborateM (List Typed.Rule)
  | [] => return []
  | ⟨_, pattern, none, body⟩ :: rules => do
    let (p, vars) ← (elaboratePattern env level pattern).run []
    unify p.pos arg p.type
    let e ← elaborateExpr (bindVars env.scope vars) level body
    unify body.pos result e.type
    let rest ← elaborateRules env level arg result rules
    return ⟨p, none, e⟩ :: rest
  | ⟨_, pattern, some guard, body⟩ :: rules => do
    let (p, vars) ← (elaboratePattern env level pattern).run []
    unify p.pos arg p.type
    let scope := bindVars env.scope vars
    let g ← elaborateExpr scope level guard
    unify guard.pos Ty.bool g.type
    let e ← elaborateExpr scope level body
    unify body.pos result e.type
    let rest ← elaborateRules env level arg result rules
    return ⟨p, some g, e⟩ :: rest

/-- Elaborate a declaration whose bindings are quantified at `level`. -/
def elaborateDecl (env : Env) (level : Int) : Decl → ElaborateM Elaborated
  | .val pos false pattern expr =>
    withinValue level do
      let e ← elaborateExpr env (level + 1) expr
      valueDecl env level pos pattern (isValue env expr) e
  | .val pos true pattern expr =>
    withinValue level
      (recursiveDecl env level pos pattern (isFunction expr) expr.pos fun scope =>
        elaborateExpr scope (level + 1) expr)
  | .functions pos bindings =>
    withinValue level
      (functionsDecl env level pos (members bindings) (Dependency.components
        (bindings.map fun b => ⟨b.name, b.clauses.map fun c => (c.params, c.body)⟩)))
  | .datatypes pos bindings => datatypesDecl env level pos bindings
  | .abbreviation pos params name type => abbreviationDecl env level pos params name type
  | .exceptions pos bindings => exceptionsDecl env level pos bindings
  | .localIn pos decls body => do
    let ds ← elaborateDecls env.scope level decls
    let bs ← elaborateDecls ds.2.1.scope level body
    return ⟨some (.localIn pos ds.1 bs.1), env.adopt bs.2.1, bs.2.2⟩

/-- Elaborate declarations in order: the typed declarations, the environment after them,
and the bindings that they make. -/
def elaborateDecls (env : Env) (level : Int) :
    List Decl → ElaborateM (List Typed.Decl × Env × List Binding)
  | [] => return ([], env, [])
  | d :: ds => do
    let first ← elaborateDecl env level d
    let (rest, env, bindings) ← elaborateDecls first.env level ds
    return (first.decl.toList ++ rest, env, first.bindings ++ bindings)

/-- The functions of a group. -/
def members : List FunBinding → List Member
  | [] => []
  | ⟨pos, name, clauses⟩ :: bs =>
    ⟨pos, name, fun env level =>
      curriedFunction level pos name ((clauses.head?.map (·.params.length)).getD 0)
        fun params scrutinee result =>
          elaborateClauses env level name params scrutinee result clauses⟩ :: members bs

/-- Elaborate the clauses of a function to rules. -/
def elaborateClauses (env : Env) (level : Int) (name : String) (params : List Ty)
    (scrutinee result : Ty) : List FunClause → ElaborateM (List Typed.Rule)
  | [] => return []
  | ⟨pos, patterns, annot, body⟩ :: clauses => do
    let rule ← functionClause env level name params scrutinee result pos patterns annot
      body.pos fun scope => elaborateExpr scope level body
    let rest ← elaborateClauses env level name params scrutinee result clauses
    return rule :: rest

end

end Typecase.Elaborate
